import CypherSql.Plan.Joins
import CypherSql.Proofs.Passes.Sources

/-! The conditions of patterns and clauses move to the items and selects where they are checked.
Items of required clauses never have pending conditions, and pending conditions refer to what is in
reach behind their own clause.
-/

namespace CypherSql.Plan

/-- The item without its table and its pending conditions. -/
def FromItem.bare (item : FromItem) : FromItem :=
  { item with table := none, pending := [] }

namespace QueryModel

variable {query : QueryModel} {catalog : Catalog} {vars : VarTable} {index : Nat}
  {model : ScopeModel} {tabled : Bool}

/-- The variable is in reach of a scope behind some of its clauses. -/
def ReachesBehind (query : QueryModel) (index : Nat) (model : ScopeModel) (count : Nat) (id : VarId)
    : Prop :=
  InReach query.vars index (itemsBefore query.models index)
    (clauseIds (model.clauses.take count)) id

theorem ReachesBehind.reaches {count : Nat} {id : VarId}
    (reach : query.ReachesBehind index model count id)
    : query.Reaches index model id := by
  refine reach.mono fun id member => ?_
  obtain ⟨clause, listed, declared⟩ := List.mem_flatMap.mp member
  exact List.mem_flatMap.mpr ⟨clause, List.mem_of_mem_take listed, declared⟩

/-- The clauses up to one declare what those before it and it itself declare. -/
theorem clauseIds_take_succ {clauses : List ReadingClause} {position : Nat} {clause : ReadingClause}
    (found : clauses[position]? = some clause)
    : clauseIds (clauses.take (position + 1))
      = clauseIds (clauses.take position) ++ clause.ids := by
  obtain ⟨within, same⟩ := List.getElem?_eq_some_iff.mp found
  rw [List.take_succ_eq_append_getElem within, same]
  simp [clauseIds]

/-- A source of a scope is the subquery before it, or the table of a variable of a clause. -/
inductive IsSource (query : QueryModel) (index : Nat) (model : ScopeModel) : FromItem → Prop where
  | subquery {source} (behind : index = source + 1)
    : IsSource query index model
        (.ofSubquery source (suppliedOf query.vars (itemsBefore query.models index)))
  | table {position clause id} (found : model.clauses[position]? = some clause)
    (declared : id ∈ clause.ids)
    : IsSource query index model (.ofTable id position clause.optional)

theorem isSource_of_mem {item : FromItem} (member : item ∈ query.sources index model)
    : IsSource query index model item := by
  rcases List.mem_append.mp member with inner | table
  · cases index with
    | zero => simp [innerItems] at inner
    | succ source =>
        obtain rfl := List.mem_singleton.mp inner
        exact .subquery rfl
  · obtain ⟨⟨clause, position⟩, listed, inside⟩ := List.mem_flatMap.mp table
    obtain ⟨id, declared, rfl⟩ := List.mem_map.mp inside
    exact .table (List.mem_zipIdx_iff_getElem?.mp listed) declared

/-- An item on its way to its place: it is a source of the scope, and its pending conditions refer
to what is in reach behind its clause. Only an optional item has any. A subquery has no table, and
before tables are looked up no item has one.
-/
structure Placeable (query : QueryModel) (index : Nat) (model : ScopeModel) (tabled : Bool)
    (source item : FromItem)
    : Prop where
  isSource : IsSource query index model source
  same : item.bare = source
  required : item.optional = false → item.pending = []
  pending : Expr.AllOver (query.ReachesBehind index model (item.clauseNumber + 1)) item.pending
  untabled : tabled = false → item.table = none
  subquery : item.source.isSome → item.table = none

namespace Placeable

variable {source item : FromItem}

/-- A source is placeable as it is. -/
theorem ofSource (isSource : IsSource query index model source)
    : query.Placeable index model tabled source source := by
  cases isSource with
  | subquery behind =>
      exact ⟨.subquery behind, rfl, fun _ => rfl, Expr.allOver_nil, fun _ => rfl, fun _ => rfl⟩
  | table found declared =>
      exact ⟨.table found declared, rfl, fun _ => rfl, Expr.allOver_nil, fun _ => rfl, fun _ => rfl⟩

/-- An optional item may get more pending conditions. -/
theorem addPending (placeable : query.Placeable index model tabled source item)
    (isOptional : item.optional = true) {conditions : List Expr}
    (isOver : Expr.AllOver (query.ReachesBehind index model (item.clauseNumber + 1)) conditions)
    : query.Placeable index model tabled source
      { item with pending := item.pending ++ conditions } where
  isSource := placeable.isSource
  same := placeable.same
  required := fun required => by simp [isOptional] at required
  pending := Expr.allOver_append.mpr ⟨placeable.pending, isOver⟩
  untabled := placeable.untabled
  subquery := placeable.subquery

/-- A table item is that of a node or relationship that a clause declares. -/
theorem declared (placeable : query.Placeable index model tabled source item) {id : VarId}
    (isTable : item.tableVar? = some id)
    : ∃ position clause,
        model.clauses[position]? = some clause
        ∧ id ∈ clause.ids
        ∧ item.clause = some position
        ∧ item.optional = clause.optional := by
  have same := placeable.same
  cases placeable.isSource with
  | subquery behind =>
      have source := congrArg FromItem.source same
      simp only [FromItem.bare, FromItem.ofSubquery] at source
      simp [FromItem.tableVar?, source] at isTable
  | table found declared =>
      have source := congrArg FromItem.source same
      have ids := congrArg FromItem.ids same
      have clause := congrArg FromItem.clause same
      have isOptional := congrArg FromItem.optional same
      simp only [FromItem.bare, FromItem.ofTable] at source ids clause isOptional
      simp only [FromItem.tableVar?, source, ids, Option.some.injEq] at isTable
      exact ⟨_, _, found, isTable ▸ declared, clause, isOptional⟩

/-- An item of a clause is optional exactly if the clause is. -/
theorem optional_of_clause (placeable : query.Placeable index model tabled source item)
    {position : Nat}
    {clause : ReadingClause} (found : model.clauses[position]? = some clause)
    (inClause : item.clause = some position)
    : item.optional = clause.optional := by
  have same := placeable.same
  cases placeable.isSource with
  | subquery behind =>
      have other := congrArg FromItem.clause same
      simp [FromItem.bare, FromItem.ofSubquery, inClause] at other
  | table found' declared =>
      have other := congrArg FromItem.clause same
      have isOptional := congrArg FromItem.optional same
      simp only [FromItem.bare, FromItem.ofTable, inClause, Option.some.injEq] at other isOptional
      subst other
      rw [isOptional, Option.some.inj (found.symm.trans found')]

end Placeable

/-- The condition of a node or relationship refers to what is in reach behind its clause. -/
theorem Refined.restriction_over (refined : query.Refined catalog true vars)
    (found : query.models[index]? = some model) {position : Nat} {clause : ReadingClause}
    (at' : model.clauses[position]? = some clause) {id : VarId} (declared : id ∈ clause.ids)
    {var : Variable} (present : vars.get? id = some var) {condition : Expr}
    (restricted : var.definition.restriction? = some condition)
    : condition.Over (query.ReachesBehind index model (position + 1)) := by
  have clauseScoped := (query.collected.inScope found).clauses.each at'
  obtain ⟨old, collected, -, outline, restriction⟩ := refined.collected present
  obtain ⟨other, collected', here, element⟩ := clauseScoped.elements id declared
  obtain rfl := Option.some.inj (collected.symm.trans collected')
  have restricted : old.definition.restriction? = some condition := by
    rcases restriction with same | absent
    · rw [← same, restricted]
    · simp [absent] at restricted
  refine (clauseScoped.restrictions id declared old collected condition restricted).mono ?_
  rintro other (rfl | reach)
  · have last : query.vars.target? other = none := by
      rw [VarTable.target?, VarTable.definition?_of_get? collected]
      cases kind : old.definition <;> simp_all [Definition.isElement, Definition.target?]
    rw [ReachesBehind, InReach, VarTable.Ordered.resolve_of_target_none last]
    refine .declared collected here ?_
    rw [clauseIds_take_succ at']
    exact List.mem_append_right _ declared
  · rw [ReachesBehind, clauseIds_take_succ at']
    exact reach

/-- Taking the condition off a node or relationship keeps everything else. -/
theorem takeRestriction_eq {definition : Definition} (element : definition.isElement)
    : ∃ rest,
        takeRestriction definition = some (definition.restriction?, rest)
        ∧ rest.outline = definition.outline
        ∧ rest.restriction? = none
        ∧ rest.labels? = definition.labels?
        ∧ ∀ query catalog, definition.Agrees query catalog true
          → rest.Agrees query catalog true := by
  cases definition with
  | node pattern => exact ⟨_, rfl, rfl, rfl, rfl, fun _ _ agrees => agrees⟩
  | relationship rel => exact ⟨_, rfl, rfl, rfl, rfl, fun _ _ agrees => agrees⟩
  | _ => simp [Definition.isElement] at element

/-- The conditions of patterns move safely, by induction over the items. -/
theorem Refined.moveItemRestrictions (refined : query.Refined catalog true vars)
    (labels : query.SameLabels vars) (found : query.models[index]? = some model)
    {sources items : List FromItem}
    (placeable : List.Forall₂ (query.Placeable index model tabled) sources items)
    : Safely (fun result =>
          List.Forall₂ (query.Placeable index model tabled) sources result.1
          ∧ Expr.AllOver (query.Reaches index model) result.2.1
          ∧ query.Refined catalog true result.2.2
          ∧ query.SameLabels result.2.2)
        (moveItemRestrictions items vars) := by
  induction placeable generalizing vars with
  | nil => exact ⟨.nil, Expr.allOver_nil, refined, labels⟩
  | @cons source item sources items first _ ih =>
      unfold Plan.moveItemRestrictions
      split
      · refine (ih refined labels).bind ?_
        rintro ⟨rest, moved, later⟩ ⟨all, isOver, kept⟩
        exact ⟨.cons first all, isOver, kept⟩
      · rename_i id isTable
        obtain ⟨position, clause, at', declared, inClause, -⟩ := first.declared isTable
        have clauseScoped := (query.collected.inScope found).clauses.each at'
        obtain ⟨old, collected, -, element⟩ := clauseScoped.elements id declared
        obtain ⟨var, present, -, outline, -⟩ := refined.grows.kept collected
        have element : var.definition.isElement := by
          rwa [← Definition.isElement_outline, outline, Definition.isElement_outline]
        obtain ⟨rest, taken, sameOutline, unrestricted, sameLabels, agrees⟩ :=
          takeRestriction_eq element
        have isOver : Expr.AllOver (query.ReachesBehind index model (position + 1))
            (var.definition.restriction?.elim [] Expr.conjuncts) := by
          cases restricted : var.definition.restriction? with
          | none => exact Expr.allOver_nil
          | some condition =>
              exact (refined.restriction_over found at' declared present restricted).conjuncts
        simp only [VarTable.definition?_of_get? present, Option.bind_some, taken]
        have refinedLater := refined.redefine_refresh present sameOutline unrestricted
          (agrees _ _ (refined.agrees id var present))
        have labelsLater : query.SameLabels ((vars.redefine id rest).refresh id) := by
          intro other
          rw [← labels.redefine present sameLabels other]
          simp only [VarTable.definition?, VarTable.get?_refresh]
        refine (ih refinedLater labelsLater).bind ?_
        rintro ⟨others, moved, later⟩ ⟨all, overMoved, kept⟩
        have number : item.clauseNumber = position := by simp [FromItem.clauseNumber, inClause]
        dsimp only
        split
        · rename_i isOptional
          exact ⟨.cons (first.addPending isOptional (number ▸ isOver)) all, overMoved, kept⟩
        · refine ⟨.cons first all, ?_, kept⟩
          exact Expr.allOver_append.mpr ⟨isOver.mono fun _ => ReachesBehind.reaches, overMoved⟩

/-- Only an item of the clause gets the conditions, by induction over the items. -/
theorem addPendingFirst?_forall₂ {clause : Nat} {conditions : List Expr}
    {items later : List FromItem}
    (added : addPendingFirst? clause conditions items = some later)
    : List.Forall₂
        (fun old new =>
          new = old
          ∨ old.clause = some clause ∧ new = { old with pending := old.pending ++ conditions })
        items later := by
  induction items generalizing later with
  | nil => simp [addPendingFirst?] at added
  | cons item rest ih =>
      have unchanged : List.Forall₂
          (fun old new : FromItem =>
            new = old
            ∨ old.clause = some clause ∧ new = { old with pending := old.pending ++ conditions })
          rest rest :=
        List.forall₂_same.mpr fun _ _ => .inl rfl
      unfold addPendingFirst? at added
      split at added
      · rename_i inClause
        obtain rfl := Option.some.inj added
        exact .cons (.inr ⟨inClause, rfl⟩) unchanged
      · obtain ⟨others, found, rfl⟩ := Option.map_eq_some_iff.mp added
        exact .cons (.inl rfl) (ih found)

/-- Items stay placeable when the last one of an optional clause gets conditions that refer to what
is in reach behind the clause.
-/
theorem placeable_addPending? {sources items later : List FromItem} {position : Nat}
    {clause : ReadingClause} {conditions : List Expr}
    (placeable : List.Forall₂ (query.Placeable index model tabled) sources items)
    (at' : model.clauses[position]? = some clause) (isOptional : clause.optional = true)
    (isOver : Expr.AllOver (query.ReachesBehind index model (position + 1)) conditions)
    (added : addPending? position conditions items = some later)
    : List.Forall₂ (query.Placeable index model tabled) sources later := by
  obtain ⟨reversed, found, rfl⟩ := Option.map_eq_some_iff.mp added
  have changed := addPendingFirst?_forall₂ found
  rw [← List.forall₂_reverse_iff, List.reverse_reverse]
  rw [← List.forall₂_reverse_iff] at placeable
  generalize sources.reverse = sources at placeable
  generalize items.reverse = items at placeable changed
  clear found added
  induction placeable generalizing reversed with
  | nil =>
      cases changed
      exact .nil
  | cons first _ ih =>
      cases changed with
      | cons change rest =>
          refine .cons ?_ (ih _ rest)
          rcases change with rfl | ⟨inClause, rfl⟩
          · exact first
          · refine first.addPending ((first.optional_of_clause at' inClause).trans isOptional) ?_
            simpa [FromItem.clauseNumber, inClause] using isOver

/-- The conditions of clauses move safely, by induction over the clauses from a position on. -/
theorem moveClauseConditions_safely (found : query.models[index]? = some model)
    {sources items : List FromItem}
    (placeable : List.Forall₂ (query.Placeable index model tabled) sources items)
    {clauses : List (ReadingClause × Nat)}
    (listed : ∀ entry ∈ clauses, model.clauses[entry.2]? = some entry.1)
    : Safely (fun result =>
          List.Forall₂ (query.Placeable index model tabled) sources result.2.1
          ∧ Expr.AllOver (query.Reaches index model) result.2.2)
        (moveClauseConditions index clauses items) := by
  induction clauses generalizing items with
  | nil => exact ⟨placeable, Expr.allOver_nil⟩
  | cons entry rest ih =>
      obtain ⟨clause, position⟩ := entry
      have at' : model.clauses[position]? = some clause := listed (clause, position) (by simp)
      have others := fun entry member => listed entry (List.mem_cons_of_mem _ member)
      unfold moveClauseConditions
      split
      · refine (ih placeable others).bind ?_
        rintro ⟨cleared, later, moved⟩ ⟨all, isOver⟩
        exact ⟨all, isOver⟩
      · rename_i condition restricted
        have clauseScoped := (query.collected.inScope found).clauses.each at'
        have isOver : Expr.AllOver (query.ReachesBehind index model (position + 1))
            condition.conjuncts := by
          have isOver := clauseScoped.condition condition restricted
          rw [← clauseIds_take_succ at'] at isOver
          exact isOver.conjuncts
        dsimp only
        split
        · rename_i isOptional
          split
          · simp [Cause.category]
          · rename_i later added
            refine (ih (placeable_addPending? placeable at' isOptional isOver added) others).bind ?_
            rintro ⟨cleared, last, moved⟩ ⟨all, overMoved⟩
            exact ⟨all, overMoved⟩
        · refine (ih placeable others).bind ?_
          rintro ⟨cleared, last, moved⟩ ⟨all, overMoved⟩
          exact ⟨all, Expr.allOver_append.mpr
            ⟨isOver.mono fun _ => ReachesBehind.reaches, overMoved⟩⟩

end QueryModel

/-- The scope without its clauses and sources: what no step from here on changes but the
simplifications.
-/
def Scope.frame (scope : Scope) : Scope :=
  { scope with clauses := [], select := .empty }

/-- A scope whose items are ready to be arranged: each is placeable, and the conditions refer to
what is in reach.
-/
structure QueryModel.Prepared (query : QueryModel) (tabled : Bool) (model : ScopeModel)
    (scope : Scope)
    : Prop where
  frame : scope.frame = (model.scope scope.index).frame
  joins : scope.select.joins = []
  items
    : List.Forall₂ (query.Placeable scope.index model tabled) (query.sources scope.index model)
        scope.select.fromItems
  conditions : Expr.AllOver (query.Reaches scope.index model) scope.select.conditions

/-- The conditions of a scope move safely. -/
theorem QueryModel.Refined.moveInScope {query : QueryModel} {catalog : Catalog} {vars : VarTable}
    {index : Nat} {model : ScopeModel} (refined : query.Refined catalog true vars)
    (labels : query.SameLabels vars) (found : query.models[index]? = some model)
    : Safely (fun result =>
          result.1.index = index
          ∧ query.Prepared false model result.1
          ∧ query.Refined catalog true result.2
          ∧ query.SameLabels result.2)
        (moveInScope (query.sourced model index) vars) := by
  have placeable : List.Forall₂ (query.Placeable index model false) (query.sources index model)
      (query.sources index model) :=
    List.forall₂_same.mpr fun item member => .ofSource (isSource_of_mem member)
  have listed : ∀ entry ∈ model.clauses.zipIdx, model.clauses[entry.2]? = some entry.1 :=
    fun entry member => List.mem_zipIdx_iff_getElem?.mp member
  have filter : Expr.AllOver (query.Reaches index model)
      (model.filter.elim [] Expr.conjuncts) := by
    cases filter : model.filter with
    | none => exact Expr.allOver_nil
    | some condition =>
        have isOver := (query.collected.inScope found).filter condition filter
        exact (isOver.mono fun _ reach => reach.mono (by simp)).conjuncts
  unfold Plan.moveInScope
  refine (refined.moveItemRestrictions labels found placeable).bind ?_
  rintro ⟨items, ofItems, later⟩ ⟨placeable, overItems, refined, labels⟩
  refine (moveClauseConditions_safely found placeable listed).bind ?_
  rintro ⟨clauses, items, ofClauses⟩ ⟨placeable, overClauses⟩
  refine ⟨rfl, ⟨rfl, rfl, placeable, ?_⟩, refined, labels⟩
  exact Expr.allOver_append.mpr ⟨Expr.allOver_append.mpr ⟨filter, overItems⟩, overClauses⟩

/-- The conditions of patterns and clauses move safely. -/
theorem moveRestrictions_safely {query : QueryModel} {catalog : Catalog} {draft : Draft}
    (refined : query.Refined catalog true draft.vars) (labels : query.SameLabels draft.vars)
    (each : draft.tree.Each query.models fun model scope => scope = query.sourced model scope.index)
    (named : ∀ subquery ∈ draft.tree.subqueries, subquery.Named)
    : Safely (fun later =>
          query.Refined catalog true later.vars
          ∧ query.SameLabels later.vars
          ∧ later.tree.Each query.models (query.Prepared false)
          ∧ ∀ subquery ∈ later.tree.subqueries, subquery.Named)
        (moveRestrictions draft) := by
  have threads : Threads fun _ _ => True := ⟨fun _ => trivial, fun _ _ _ _ _ => trivial⟩
  have moved := draft.eachScope_safely
    (fun vars => query.Refined catalog true vars ∧ query.SameLabels vars)
    (fun old _ new => ∀ model,
      query.models[old.index]? = some model
        → new.index = old.index ∧ query.Prepared false model new)
    threads (f := moveInScope) (fun _ _ _ _ _ related => related) ⟨refined, labels⟩ ?_
  · refine moved.mono ?_
    rintro _ ⟨tree, vars, rfl, ⟨refined, labels⟩, maps⟩
    refine ⟨refined, labels, ?_, maps.named named⟩
    exact each.maps maps fun model old new found _ changed => changed model found
  · rintro scope member vars ⟨refined, labels⟩
    obtain ⟨model, found, same⟩ := each.each scope member
    rw [same]
    refine (refined.moveInScope labels found).mono ?_
    rintro ⟨changed, later⟩ ⟨index, prepared, refined, labels⟩
    refine ⟨⟨refined, labels⟩, trivial, fun other found' => ?_⟩
    obtain rfl := Option.some.inj (found.symm.trans found')
    exact ⟨index, prepared⟩

end CypherSql.Plan
