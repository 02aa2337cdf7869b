import Mathlib.Data.List.Nodup
import CypherSql.Proofs.Filters.Placed

/-! No filter of a query is lost or doubled: where the joins are arranged, the select of each scope
checks every condition that is written in the scope exactly once, in its `WHERE` or in an outer join
of the clause it belongs to.
-/

namespace CypherSql.Plan

namespace WrittenScope

/-- All conditions of a scope. -/
def conditions (scope : WrittenScope) : List Expr :=
  scope.filter ++ scope.clauses.flatMap (·.conditions)

/-- The conditions of a scope that do not belong to an optional clause. -/
def requiredConditions (scope : WrittenScope) : List Expr :=
  scope.filter ++ (scope.clauses.filter (!·.optional)).flatMap (·.conditions)

/-- The conditions of the clause at a position, if it is an optional one. -/
def optionalConditions (scope : WrittenScope) (position : Nat) : List Expr :=
  (scope.clauses[position]?.filter (·.optional)).elim [] (·.conditions)

end WrittenScope

/-- A select checks the conditions of a scope, given what each of its joins checks besides the
conditions of relationships. Those of an optional clause are checked by outer joins of the clause,
all others in the `WHERE`; no item still waits for a condition.
-/
structure Select.Filters (select : Select) (written : WrittenScope)
    (entries : List (Join × List Expr))
    : Prop where
  joins : select.joins = entries.map (·.1)
  checks : ∀ entry ∈ entries, entry.1.Checks entry.2
  all
    : (select.conditions.flatMap Expr.conjuncts ++ entries.flatMap (·.2)).Perm written.conditions
  required : (select.conditions.flatMap Expr.conjuncts).Perm written.requiredConditions
  optional : ∀ position, (filtersAt entries position).Perm (written.optionalConditions position)
  outer
    : ∀ entry ∈ entries,
        entry.2 ≠ []
        → entry.1.outer = true
          ∧ ∃ position clause,
              entry.1.item.clause = some position
              ∧ written.clauses[position]? = some clause
              ∧ clause.optional = true
  pending : ∀ item ∈ select.items, item.pending = []

namespace ScopeModel.Holds

variable {vars : VarTable} {model : ScopeModel} {written : WrittenScope}

theorem required_perm (holds : model.Holds vars written)
    : (model.requiredConditions vars).Perm written.requiredConditions := by
  rw [ScopeModel.requiredConditions, WrittenScope.requiredConditions, holds.filter]
  apply List.Perm.append_left
  have clauses := holds.clauses
  generalize model.clauses = recorded at clauses
  generalize written.clauses = clausesWritten at clauses
  induction clauses with
  | nil => exact .refl _
  | @cons clause own recorded others first _ ih =>
      rw [List.filter_cons, List.filter_cons, first.optional]
      split
      · exact first.perm.append ih
      · exact ih

theorem optional_perm (holds : model.Holds vars written) (position : Nat)
    : (model.optionalConditions vars position).Perm (written.optionalConditions position) := by
  rw [ScopeModel.optionalConditions, WrittenScope.optionalConditions]
  cases found : model.clauses[position]? with
  | none =>
      have beyond := List.getElem?_eq_none_iff.mp found
      rw [List.getElem?_eq_none_iff.mpr (holds.clauses.length_eq ▸ beyond)]
      exact .refl _
  | some clause =>
      obtain ⟨own, found', clauseHolds⟩ := forall₂_getElem?_left holds.clauses found
      rw [found', Option.filter_some, Option.filter_some, clauseHolds.optional]
      split
      · exact clauseHolds.perm
      · exact .refl _

theorem isFilter_of_required (holds : model.Holds vars written) {condition : Expr}
    (member : condition ∈ written.requiredConditions)
    : condition.IsFilter := by
  rcases List.mem_append.mp member with opening | own
  · exact holds.filters condition opening
  · obtain ⟨clause, listed, inside⟩ := List.mem_flatMap.mp own
    obtain ⟨position, found⟩ := List.mem_iff_getElem?.mp (List.mem_filter.mp listed).1
    obtain ⟨_, -, clauseHolds⟩ := forall₂_getElem?_right holds.clauses found
    exact clauseHolds.filters condition inside

theorem isFilter_of_optional (holds : model.Holds vars written) {position : Nat} {condition : Expr}
    (member : condition ∈ written.optionalConditions position)
    : condition.IsFilter := by
  rw [WrittenScope.optionalConditions] at member
  cases found : written.clauses[position]?.filter (·.optional) with
  | none => simp [found] at member
  | some clause =>
      rw [found] at member
      obtain ⟨_, -, clauseHolds⟩ :=
        forall₂_getElem?_right holds.clauses (Option.filter_eq_some_iff.mp found).1
      exact clauseHolds.filters condition member

end ScopeModel.Holds

/-- What joins check is what those of each clause check, if all that check something are of a
clause, by induction over the joins.
-/
theorem flatMap_filtersAt_perm {entries : List (Join × List Expr)} {count : Nat}
    (within
      : ∀ entry ∈ entries,
          entry.2 ≠ [] → ∃ position < count, entry.1.item.clause = some position)
    : ((List.range count).flatMap (filtersAt entries)).Perm (entries.flatMap (·.2)) := by
  induction entries with
  | nil => simp [filtersAt]
  | cons entry rest ih =>
      have split (position : Nat)
          : filtersAt (entry :: rest) position
            = (if entry.1.item.clause = some position then entry.2 else [])
              ++ filtersAt rest position := by
        rw [filtersAt, List.filter_cons]
        by_cases here : entry.1.item.clause = some position <;> simp [here, filtersAt]
      have own : (List.range count).flatMap
          (fun position => if entry.1.item.clause = some position then entry.2 else [])
            = entry.2 := by
        by_cases none : entry.2 = []
        · simp [none]
        · obtain ⟨own, inRange, inClause⟩ := within entry (by simp) none
          have once : (List.range count).filter (· = own) = [own] := by
            rw [List.filter_eq,
              List.count_eq_one_of_mem List.nodup_range (List.mem_range.mpr inRange)]
            rfl
          have parts := flatMap_filter (· = own) (fun _ => entry.2) (List.range count)
          rw [once] at parts
          simpa [inClause, eq_comm] using parts.symm
      simp only [funext split, List.flatMap_cons]
      refine (List.flatMap_append_perm _ _ _).symm.trans ?_
      rw [own]
      exact (ih fun other member => within other (by simp [member])).append_left _

/-- The conditions of a scope are those of each optional clause and all others. -/
theorem WrittenScope.conditions_perm (scope : WrittenScope)
    : (scope.requiredConditions
        ++ (List.range scope.clauses.length).flatMap scope.optionalConditions).Perm
        scope.conditions := by
  have optionals (clauses : List WrittenClause)
      : ((List.range clauses.length).flatMap fun position =>
            (clauses[position]?.filter (·.optional)).elim [] (·.conditions))
        = (clauses.filter (·.optional)).flatMap (·.conditions) := by
    induction clauses with
    | nil => rfl
    | cons first rest ih =>
        rw [List.length_cons, List.range_succ_eq_map, List.flatMap_cons, List.flatMap_map,
          List.filter_cons]
        simp only [List.getElem?_cons_succ, List.getElem?_cons_zero, ih, Option.filter_some]
        split <;> simp
  have parts :=
    List.filter_append_perm (fun clause : WrittenClause => !clause.optional) scope.clauses
  simp only [Bool.not_not] at parts
  have both := parts.flatMap_right (·.conditions)
  rw [List.flatMap_append] at both
  have same : (List.range scope.clauses.length).flatMap scope.optionalConditions = _ :=
    optionals scope.clauses
  rw [same, WrittenScope.requiredConditions, WrittenScope.conditions, List.append_assoc]
  exact both.append_left _

/-- A select checks the conditions that were routed to its `WHERE` and to the items of its clauses.
-/
theorem ScopeModel.Holds.filters_of_perm {vars : VarTable} {model : ScopeModel}
    {written : WrittenScope} (holds : model.Holds vars written) {select : Select}
    {entries : List (Join × List Expr)} (joins : select.joins = entries.map (·.1))
    (checks : ∀ entry ∈ entries, entry.1.Checks entry.2)
    (outer : ∀ entry ∈ entries, entry.2 ≠ [] → entry.1.outer = true ∧ entry.1.item.clause.isSome)
    (conditions : select.conditions.Perm (model.requiredConditions vars))
    (filters
      : ∀ position, (filtersAt entries position).Perm (model.optionalConditions vars position))
    (pending : ∀ item ∈ select.items, item.pending = [])
    : select.Filters written entries := by
  have required := conditions.trans holds.required_perm
  have optional := fun position => (filters position).trans (holds.optional_perm position)
  have single : ∀ condition ∈ select.conditions, condition.conjuncts = [condition] :=
    fun condition member => (holds.isFilter_of_required (required.mem_iff.mp member)).single
  have ofClause : ∀ entry ∈ entries, entry.2 ≠ [] →
      ∃ position clause,
        entry.1.item.clause = some position
        ∧ written.clauses[position]? = some clause
        ∧ clause.optional = true := by
    intro entry member some'
    obtain ⟨position, inClause⟩ := Option.isSome_iff_exists.mp (outer entry member some').2
    obtain ⟨filter, checked⟩ := List.exists_mem_of_ne_nil _ some'
    have listed : filter ∈ filtersAt entries position :=
      List.mem_flatMap.mpr ⟨entry, List.mem_filter.mpr ⟨member, by simp [inClause]⟩, checked⟩
    have belongs := (optional position).mem_iff.mp listed
    rw [WrittenScope.optionalConditions] at belongs
    cases found : written.clauses[position]?.filter (·.optional) with
    | none => simp [found] at belongs
    | some clause =>
        obtain ⟨present, isOptional⟩ := Option.filter_eq_some_iff.mp found
        exact ⟨position, clause, inClause, present, isOptional⟩
  have spread : ((List.range written.clauses.length).flatMap (filtersAt entries)).Perm
      (entries.flatMap (·.2)) := by
    apply flatMap_filtersAt_perm
    intro entry member some'
    obtain ⟨position, clause, inClause, present, -⟩ := ofClause entry member some'
    exact ⟨position, (List.getElem?_eq_some_iff.mp present).1, inClause⟩
  have each : ((List.range written.clauses.length).flatMap (filtersAt entries)).Perm
      ((List.range written.clauses.length).flatMap written.optionalConditions) :=
    List.Perm.flatMap_left _ fun position _ => optional position
  rw [← Expr.flatMap_conjuncts_of_single single] at required
  exact {
    joins := joins
    checks := checks
    all := (required.append (spread.symm.trans each)).trans written.conditions_perm
    required := required
    optional := optional
    outer := fun entry member some' => ⟨(outer entry member some').1, ofClause entry member some'⟩
    pending := pending
  }

/-- A select whose joins are arranged checks the conditions that wait in it. -/
theorem ScopeModel.Routes.arrangeScope {vars : VarTable} {model : ScopeModel}
    {written : WrittenScope}
    {scope : Scope} (routes : model.Routes vars scope) (holds : model.Holds vars written)
    {catalog : Catalog} {current : VarTable} {result : Scope × VarTable}
    (arranged : arrangeScope catalog scope current = .ok result)
    (pending : ∀ item ∈ result.1.select.items, item.pending = [])
    : ∃ entries, result.1.select.Filters written entries := by
  unfold Plan.arrangeScope at arranged
  split at arranged
  · cases arranged
  · obtain ⟨⟨narrowed, later⟩, changed, arranged⟩ := bind_eq_ok.mp arranged
    obtain ⟨layout, placed, arranged⟩ := bind_eq_ok.mp arranged
    dsimp only at arranged
    split at arranged
    · cases arranged
    · obtain rfl := Except.ok.inj arranged
      obtain ⟨⟨items, last⟩, narrows, same⟩ := bind_eq_ok.mp changed
      obtain ⟨rfl, rfl⟩ := Prod.mk.inj (Except.ok.inj same)
      have routes
          : model.Routes vars { scope with select := { scope.select with fromItems := items } } :=
        routes.retable rfl rfl (eachItem_retables (fun _ _ _ => narrowItem_retables) narrows)
      have all : ∀ position, ∀ condition ∈ pendingAt items position, condition.IsFilter := by
        intro position condition member
        apply holds.isFilter_of_optional
        exact (holds.optional_perm position).mem_iff.mp
          ((routes.pending position).mem_iff.mp member)
      obtain ⟨entries, joins, outer, checks, filters⟩ := arrange_checks routes.numbered all placed
      refine ⟨entries, holds.filters_of_perm joins checks outer routes.conditions ?_ pending⟩
      intro position
      exact (filters position).trans (routes.pending position)

/-- Until the joins of a query are arranged, its conditions wait where they belong. -/
theorem QueryModel.After.routes {query : QueryModel} {catalog : Catalog} {start arranged : Draft}
    (after : query.After catalog start .collectVariables)
    (arranges : runSteps catalog Step.arrangeJoins.upTo start = .ok arranged)
    : ∃ tabled,
        List.Forall₂ (ScopeModel.Routes query.vars) query.models tabled.tree.scopes
        ∧ arrangeJoins catalog tabled = .ok arranged := by
  have split : Step.arrangeJoins.upTo
      = Step.findSources.upTo ++ [.moveRestrictions, .resolveTables, .arrangeJoins] := by decide
  obtain ⟨sourced, finds, rest⟩ := QueryModel.exists_of_runSteps_append (split ▸ arranges)
  simp only [runSteps, List.foldlM_cons, List.foldlM_nil, runStep, bind_pure] at rest
  obtain ⟨moved, moves, rest⟩ := bind_eq_ok.mp rest
  obtain ⟨tabled, resolves, joins⟩ := bind_eq_ok.mp rest
  obtain ⟨-, -, each, -⟩ := after.early (by decide) finds
  have intact : ∀ id, sourced.vars.conditionsOn id = query.vars.conditionsOn id :=
    fun id => after.2.2 ▸ conditionsOn_of_findSources finds id
  exact ⟨tabled, resolveTables_routes
    (QueryModel.moveRestrictions_routes each intact moves) resolves, joins⟩

/-- Where the joins of a query are arranged, the select of each scope checks every condition that is
written in the scope exactly once, where it belongs.
-/
theorem arrangeJoins_filters {query : Cypher.Query} {catalog : Catalog} {start arranged : Draft}
    (begins : Draft.ofQuery query = .ok start)
    (arranges : runSteps catalog Step.arrangeJoins.upTo start = .ok arranged)
    : ∃ written,
        writtenScopes query = .ok written
        ∧ List.Forall₂ (fun own scope => ∃ entries, scope.select.Filters own entries) written
            arranged.tree.scopes := by
  obtain ⟨walk, collected, empty, models, vars⟩ := QueryModel.exists_of_ofQuery begins
  obtain ⟨written, isWritten, holds⟩ := collect_holds collected
  obtain ⟨-, isCollected, -⟩ := (collect_safely query).of_ok collected
  have after
      : QueryModel.After ⟨walk.vars, walk.models, isCollected⟩ catalog start .collectVariables :=
    ⟨empty, models, vars⟩
  obtain ⟨tabled, routes, joins⟩ := after.routes arranges
  have known : List.Forall₂
      (fun own scope => ∃ model : ScopeModel,
        model.Holds walk.vars own ∧ model.Routes walk.vars scope)
      written tabled.tree.scopes :=
    forall₂_comp holds.flip routes fun own model scope holds routes => ⟨model, holds, routes⟩
  -- From there they go into the joins, and no item is left with any.
  obtain ⟨filters, -⟩ := Draft.eachScope_ok (fun _ _ => True)
    (fun old new => ∀ own,
      (∃ model : ScopeModel, model.Holds walk.vars own ∧ model.Routes walk.vars old)
      → (∀ item ∈ new.select.items, item.pending = [])
      → ∃ entries, new.select.Filters own entries)
    joins trivial fun scope rest vars result _ arranged => by
      refine ⟨fun own known pending => ?_, trivial⟩
      obtain ⟨model, holds, routes⟩ := known
      exact routes.arrangeScope holds arranged pending
  obtain ⟨-, -, eachJoined, -⟩ := after.arranged arranges
  have pending
      : ∀ scope ∈ arranged.tree.scopes, ∀ item ∈ scope.select.items, item.pending = [] := by
    intro scope member item inside
    obtain ⟨model, -, joined, -⟩ := eachJoined.each scope member
    exact (joined.sound item inside).1
  have checked : List.Forall₂
      (fun own scope =>
        (∀ item ∈ scope.select.items, item.pending = [])
        → ∃ entries, scope.select.Filters own entries)
      written arranged.tree.scopes :=
    forall₂_comp known filters fun own old new known filters => filters own known
  have both := (List.forall₂_and_left _ _).mpr ⟨pending, checked.flip⟩
  exact ⟨written, isWritten, both.flip.imp fun own scope known => known.2 known.1⟩

/-- The query `MATCH (a {x: 1})-[r {y: 2}]->(b) WHERE a.z = 3 AND b.z = 4
OPTIONAL MATCH (a {x: 5})<-[s]-(c {x: 6}) WHERE c.z = 7 WITH a WHERE a.z = 8 RETURN a`.
-/
def filteredHops : Cypher.Query where
  clauses :=
    [.matching
      ⟨false,
        [⟨none, ⟨some "a", [], some [("x", .literal (.integer 1))]⟩,
          [(⟨some "r", .right, [], some [("y", .literal (.integer 2))], none⟩,
            ⟨some "b", [], none⟩)]⟩],
        some (.binary .and
          (.binary .equal (.property (.var "a") "z") (.literal (.integer 3)))
          (.binary .equal (.property (.var "b") "z") (.literal (.integer 4))))⟩,
      .matching
        ⟨true,
          [⟨none, ⟨some "a", [], some [("x", .literal (.integer 5))]⟩,
            [(⟨some "s", .left, [], none, none⟩,
              ⟨some "c", [], some [("x", .literal (.integer 6))]⟩)]⟩],
          some (.binary .equal (.property (.var "c") "z") (.literal (.integer 7)))⟩,
      .withItems ⟨false, [⟨.var "a", none, "a"⟩], [], none, none⟩
        (some (.binary .equal (.property (.var "a") "z") (.literal (.integer 8)))),
      .returnItems ⟨false, [⟨.var "a", none, "a"⟩], [], none, none⟩]

/-- Witness: the seven conditions of the first scope of a query and the one of its second scope are
checked.
-/
theorem filteredHops_filters
    : ∃ start arranged written,
        Draft.ofQuery filteredHops = .ok start
        ∧ runSteps acquaintances.catalog Step.arrangeJoins.upTo start = .ok arranged
        ∧ writtenScopes filteredHops = .ok written
        ∧ written.map (·.conditions.length) = [7, 1]
        ∧ List.Forall₂ (fun own scope => ∃ entries, scope.select.Filters own entries) written
            arranged.tree.scopes := by
  have reached : (draftAfter? acquaintances.catalog .arrangeJoins filteredHops).isSome := by
    decide +kernel
  have lengths : (writtenScopes filteredHops).toOption.map
      (fun written => written.map (·.conditions.length)) = some [7, 1] := by
    decide +kernel
  obtain ⟨start, arranged, begins, arranges⟩ := exists_of_draftAfter? reached
  obtain ⟨written, isWritten, filters⟩ := arrangeJoins_filters begins arranges
  rw [isWritten] at lengths
  exact ⟨start, arranged, written, begins, arranges, isWritten, Option.some.inj lengths, filters⟩

end CypherSql.Plan
