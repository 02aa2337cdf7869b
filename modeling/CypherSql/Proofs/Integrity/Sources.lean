import CypherSql.Proofs.Filters.Placed
import CypherSql.Proofs.Integrity.Collection

/-! The steps that find and arrange the sources of the scopes keep them layered. A moved condition
refers to what its variable depends on, and a join to what its items supply.
-/

namespace CypherSql.Plan

/-- The variables of a query are layered, and so are the scopes of its models. -/
structure QueryModel.Layered (query : QueryModel) : Prop where
  vars : query.vars.Layered
  scopes
    : ∀ {index : Nat} {model : ScopeModel},
        query.models[index]? = some model → (model.scope index).Layered query.vars

namespace QueryModel

variable {query : QueryModel} {index : Nat} {model : ScopeModel} {item : FromItem}

/-- A source of a scope supplies elements of the scope, or variables of earlier scopes. -/
theorem IsSource.layered (isSource : IsSource query index model item)
    (found : query.models[index]? = some model)
    : item.Layered query.vars index := by
  cases isSource with
  | @subquery source behind =>
      intro id supplied
      obtain ⟨var, present, earlier⟩ := scope_of_mem_itemsBefore found supplied
      exact ⟨by omega, var, present, by omega⟩
  | @table position clause id at' declared =>
      intro other supplied
      obtain rfl := List.mem_singleton.mp supplied
      obtain ⟨var, present, here, isElement⟩ :=
        ((query.collected.inScope found).clauses.each at').elements other declared
      exact ⟨⟨_, VarTable.definition?_of_get? present, isElement⟩, var, present, Nat.le_of_eq here⟩

/-- A scope stays layered when it gets its sources. -/
theorem Layered.sourced (layered : query.Layered) (found : query.models[index]? = some model)
    : (query.sourced model index).Layered query.vars := by
  have scope := layered.scopes found
  have items : (query.sourced model index).select.items = query.sources index model := by
    simp [QueryModel.sourced, Select.items, ScopeModel.scope, Select.empty]
  refine {
    refers := { scope.refers with pending := ?_, joins := scope.refers.joins }
    items := scope.items
    clauses := scope.clauses
    sources := ?_
  }
  · intro item listed expr waits
    rw [items] at listed
    cases isSource_of_mem listed <;> cases waits
  · intro item listed
    rw [items] at listed
    exact (isSource_of_mem listed).layered found

end QueryModel

/-- The variable of a table is a node or relationship that is declared up to the scope. -/
theorem FromItem.Layered.element {vars : VarTable} {scope : Nat} {item : FromItem} {id : VarId}
    (layered : item.Layered vars scope) (isTable : item.tableVar? = some id)
    : vars.IsElement id ∧ vars.Upto scope id := by
  unfold FromItem.tableVar? at isTable
  split at isTable
  · rename_i noSource ids
    obtain rfl := Option.some.inj isTable
    have supplied := layered _ (ids ▸ List.mem_singleton.mpr rfl)
    rw [noSource] at supplied
    exact supplied
  · cases isTable

/-- What a source supplies is declared before the projection of its scope. -/
theorem FromItem.Layered.before {vars : VarTable} {scope : Nat} {item : FromItem}
    (layered : item.Layered vars scope)
    : ∀ id ∈ item.ids, vars.Before scope id := by
  intro id supplied
  have held := layered id supplied
  split at held
  · obtain ⟨⟨definition, defined, isElement⟩, var, found, within⟩ := held
    rw [VarTable.definition?_of_get? found] at defined
    obtain rfl := Option.some.inj defined
    exact VarTable.before_of_isElement found within isElement
  · exact held.2.before held.1

/-- The conditions on nodes and relationships refer to what those of another table may. -/
def VarTable.Restricted (base vars : VarTable) : Prop :=
  ∀ ⦃id var condition⦄,
    vars.get? id = some var
    → var.definition.restriction? = some condition
    → ∀ {scope : Nat},
        base.IsElement id → base.Upto scope id → condition.Within (base.Before scope)

section Restrictions

variable {base vars : VarTable} {allowed : VarId → Prop}

/-- The conditions on what a query declares refer to what is declared before. -/
theorem QueryModel.Refined.restricted {query : QueryModel} {catalog : Catalog} {typed : Bool}
    (refined : query.Refined catalog typed vars) (layered : query.Layered)
    : VarTable.Restricted query.vars vars := by
  intro id var condition found restricted scope isElement upto other refers
  obtain ⟨old, present, -, -, same | none⟩ := refined.collected found
  · obtain ⟨known, found', within⟩ := upto
    obtain rfl := Option.some.inj (present.symm.trans found')
    obtain ⟨definition, defined, isElement⟩ := isElement
    rw [VarTable.definition?_of_get? present] at defined
    obtain rfl := Option.some.inj defined
    have own := VarTable.before_of_isElement present within isElement
    by_cases itself : other = id
    · exact itself ▸ own
    · refine layered.vars.closed_before scope id old other present own ?_
      refine Definition.Mentions.mem_dependencies ?_ itself
      rw [restricted] at same
      cases kind : old.definition with
      | node pattern =>
          rw [kind] at same
          exact ⟨condition, same.symm, refers⟩
      | relationship rel =>
          rw [kind] at same
          exact .inr (.inr ⟨condition, same.symm, refers⟩)
      | _ => simp [kind, Definition.restriction?] at same
  · rw [restricted] at none
    cases none

/-- What is left of a definition has no condition. -/
theorem takeRestriction_eq_some {definition rest : Definition} {restriction : Option Expr}
    (taken : takeRestriction definition = some (restriction, rest))
    : restriction = definition.restriction? ∧ rest.restriction? = none := by
  unfold takeRestriction at taken
  split at taken <;> simp_all <;> obtain ⟨rfl, rfl⟩ := taken <;> exact ⟨rfl, rfl⟩

/-- More conditions may wait with a source. -/
theorem FromItem.Fits.addPending {scope : Nat} {item : FromItem} (fits : item.Fits base scope)
    {conditions : List Expr} (within : ∀ expr ∈ conditions, expr.Within (base.Before scope))
    : FromItem.Fits base scope { item with pending := item.pending ++ conditions } :=
  ⟨fits.layered, List.forall_mem_append.mpr ⟨fits.pending, within⟩⟩

/-- Moved conditions on nodes and relationships refer to what those may refer to, by induction over
the items.
-/
theorem moveItemRestrictions_within {scope : Nat} {items : List FromItem}
    (restricted : VarTable.Restricted base vars) (fit : ∀ item ∈ items, item.Fits base scope)
    {result : List FromItem × List Expr × VarTable}
    (moved : moveItemRestrictions items vars = .ok result)
    : (∀ item ∈ result.1, item.Fits base scope)
      ∧ (∀ expr ∈ result.2.1, expr.Within (base.Before scope))
      ∧ VarTable.Restricted base result.2.2 := by
  induction items generalizing vars result with
  | nil =>
      obtain rfl := Except.ok.inj moved
      exact ⟨by simp, by simp, restricted⟩
  | cons item rest ih =>
      obtain ⟨fits, fit⟩ := List.forall_mem_cons.mp fit
      unfold moveItemRestrictions at moved
      split at moved
      · obtain ⟨⟨items, conditions, later⟩, movedRest, same⟩ := bind_eq_ok.mp moved
        obtain rfl := Except.ok.inj same
        obtain ⟨others, within, kept⟩ := ih restricted fit movedRest
        exact ⟨List.forall_mem_cons.mpr ⟨fits, others⟩, within, kept⟩
      · rename_i id isTable
        split at moved
        · cases moved
        · rename_i restriction definition taken
          obtain ⟨old, defined, taken⟩ := Option.bind_eq_some_iff.mp taken
          obtain ⟨var, found, rfl⟩ := VarTable.definition?_eq_some.mp defined
          obtain ⟨rfl, unrestricted⟩ := takeRestriction_eq_some taken
          have own : ∀ expr ∈ var.definition.restriction?.elim [] Expr.conjuncts,
              expr.Within (base.Before scope) := by
            cases condition : var.definition.restriction? with
            | none => simp
            | some condition' =>
                obtain ⟨isElement, upto⟩ := fits.layered.element isTable
                exact (restricted found condition isElement upto).conjuncts
          -- The variable has given its restriction away, and the others keep theirs.
          have keptRestricted
              : VarTable.Restricted base ((vars.redefine id definition).refresh id) := by
            intro other changed condition present isRestricted
            rw [VarTable.get?_refresh, VarTable.get?_redefine_of_get? found] at present
            split at present
            · obtain rfl := Option.some.inj present
              rw [unrestricted] at isRestricted
              cases isRestricted
            · exact restricted present isRestricted
          obtain ⟨⟨items, conditions, later⟩, movedRest, moved⟩ := bind_eq_ok.mp moved
          obtain ⟨others, within, kept⟩ := ih keptRestricted fit movedRest
          dsimp only at moved
          split at moved
          · obtain rfl := Except.ok.inj moved
            exact ⟨List.forall_mem_cons.mpr ⟨fits.addPending own, others⟩, within, kept⟩
          · obtain rfl := Except.ok.inj moved
            exact ⟨List.forall_mem_cons.mpr ⟨fits, others⟩,
              List.forall_mem_append.mpr ⟨own, within⟩, kept⟩

/-- Conditions may wait with the last item of a clause. -/
theorem fits_addPending? {scope clause : Nat} {conditions : List Expr} {items later : List FromItem}
    (fit : ∀ item ∈ items, item.Fits base scope)
    (within : ∀ expr ∈ conditions, expr.Within (base.Before scope))
    (added : addPending? clause conditions items = some later)
    : ∀ item ∈ later, item.Fits base scope := by
  obtain ⟨reversed, found, rfl⟩ := Option.map_eq_some_iff.mp added
  intro item listed
  obtain ⟨position, at'⟩ := List.getElem?_of_mem (List.mem_reverse.mp listed)
  obtain ⟨old, present, change⟩ :=
    forall₂_getElem?_right (QueryModel.addPendingFirst?_forall₂ found) at'
  have fits := fit old (List.mem_reverse.mp (List.mem_of_getElem? present))
  rcases change with rfl | ⟨-, rfl⟩
  · exact fits
  · exact fits.addPending within

/-- Moved conditions of clauses refer to what the clauses do, by induction over the clauses. -/
theorem moveClauseConditions_within {scope : Nat} {clauses : List (ReadingClause × Nat)}
    {items : List FromItem} (fit : ∀ item ∈ items, item.Fits base scope)
    (refer
      : ∀ entry ∈ clauses,
          ∀ expr, entry.1.condition = some expr → expr.Within (base.Before scope))
    {result : List ReadingClause × List FromItem × List Expr}
    (moved : moveClauseConditions scope clauses items = .ok result)
    : (∀ item ∈ result.2.1, item.Fits base scope)
      ∧ ∀ expr ∈ result.2.2, expr.Within (base.Before scope) := by
  induction clauses generalizing items result with
  | nil =>
      obtain rfl := Except.ok.inj moved
      exact ⟨fit, by simp⟩
  | cons entry rest ih =>
      obtain ⟨clause, position⟩ := entry
      obtain ⟨own, refer⟩ := List.forall_mem_cons.mp refer
      unfold moveClauseConditions at moved
      split at moved
      · obtain ⟨later, movedRest, same⟩ := bind_eq_ok.mp moved
        obtain rfl := Except.ok.inj same
        obtain ⟨fit, within⟩ := ih fit refer movedRest
        exact ⟨fit, within⟩
      · rename_i condition found
        have parts := (own condition found).conjuncts
        dsimp only at moved
        split at moved
        · split at moved
          · cases moved
          · rename_i later added
            obtain ⟨final, movedRest, same⟩ := bind_eq_ok.mp moved
            obtain rfl := Except.ok.inj same
            obtain ⟨fit, within⟩ := ih (fits_addPending? fit parts added) refer movedRest
            exact ⟨fit, within⟩
        · obtain ⟨later, movedRest, same⟩ := bind_eq_ok.mp moved
          obtain rfl := Except.ok.inj same
          obtain ⟨fit, within⟩ := ih fit refer movedRest
          exact ⟨fit, List.forall_mem_append.mpr ⟨parts, within⟩⟩

/-- A scope stays layered with other conditions and sources that refer to what they may. -/
theorem Scope.Layered.resource {scope later : Scope} (layered : scope.Layered base)
    (frame : later.frame = scope.frame)
    (clauses
      : ∀ clause ∈ later.clauses,
          (∀ expr, clause.condition = some expr → expr.Within (base.Before scope.index))
          ∧ ∀ id, id ∈ clause.ids ∨ id ∈ clause.relationships → base.IsElement id)
    (conditions : ∀ expr ∈ later.select.conditions, expr.Within (base.Before scope.index))
    (fit : ∀ item ∈ later.select.items, item.Fits base scope.index)
    (joins : ∀ join ∈ later.select.joins, join.condition.Within (base.Before scope.index))
    : later.Layered base := by
  obtain ⟨kind, index, inner, clauses', select, distinct, items, orderBy, skip, limit⟩ := later
  simp only [Scope.frame, Scope.mk.injEq] at frame
  obtain ⟨rfl, rfl, rfl, -, -, rfl, rfl, rfl, rfl, rfl⟩ := frame
  exact {
    refers := {
      items := layered.refers.items
      orderBy := layered.refers.orderBy
      skip := layered.refers.skip
      limit := layered.refers.limit
      conditions := conditions
      clauses := fun clause listed => (clauses clause listed).1
      pending := fun item listed => (fit item listed).pending
      joins := joins
    }
    items := layered.items
    clauses := fun clause listed => (clauses clause listed).2
    sources := fun item listed => (fit item listed).layered
  }

/-- A scope stays layered when its conditions move. -/
theorem Scope.Layered.moveInScope {scope : Scope} (layered : scope.Layered base)
    (restricted : VarTable.Restricted base vars) {result : Scope × VarTable}
    (moved : moveInScope scope vars = .ok result)
    : result.1.Layered base ∧ VarTable.Restricted base result.2 := by
  obtain ⟨⟨items, ofItems, later⟩, movesItems, moved⟩ := bind_eq_ok.mp moved
  obtain ⟨⟨clauses, items', ofClauses⟩, movesClauses, same⟩ := bind_eq_ok.mp moved
  obtain rfl := Except.ok.inj same
  obtain ⟨fit, withinItems, kept⟩ := moveItemRestrictions_within restricted
    (fun item listed => layered.fits item (List.mem_append_left _ listed)) movesItems
  have listed {entry : ReadingClause × Nat} (member : entry ∈ scope.clauses.zipIdx)
      : entry.1 ∈ scope.clauses :=
    List.mem_of_getElem? (List.mem_zipIdx_iff_getElem?.mp member)
  obtain rfl : clauses = _ := moveClauseConditions_clears movesClauses
  obtain ⟨fit, withinClauses⟩ := moveClauseConditions_within fit
    (fun entry member => layered.refers.clauses entry.1 (listed member)) movesClauses
  refine ⟨layered.resource rfl ?_ ?_ ?_ layered.refers.joins, kept⟩
  · intro clause member
    obtain ⟨entry, inClauses, rfl⟩ := List.mem_map.mp member
    exact ⟨by simp, layered.clauses entry.1 (listed inClauses)⟩
  · exact List.forall_mem_append.mpr
      ⟨List.forall_mem_append.mpr ⟨layered.refers.conditions, withinItems⟩, withinClauses⟩
  · intro item member
    rcases List.mem_append.mp member with inFrom | joined
    · exact fit item inFrom
    · exact layered.fits item (List.mem_append_right _ joined)

end Restrictions

section Arrangement

variable {base vars : VarTable} {allowed : VarId → Prop} {scope : Scope}

/-- A source fits with any table. -/
theorem FromItem.Fits.retable {index : Nat} {item later : FromItem} (fits : item.Fits base index)
    (retables : item.Retables later)
    : later.Fits base index := by
  obtain ⟨table, rfl⟩ := retables
  exact ⟨fits.layered, fits.pending⟩

/-- A scope stays layered when its items get other tables. -/
theorem Scope.Layered.retable
    {f : FromItem → VarTable → Except LoweringError (FromItem × VarTable)}
    (each : ∀ item vars result, f item vars = .ok result → item.Retables result.1)
    (layered : scope.Layered base) {result : Scope × VarTable}
    (succeeded : eachFromItem f scope vars = .ok result)
    : result.1.Layered base := by
  obtain ⟨⟨items, later⟩, changed, same⟩ := bind_eq_ok.mp succeeded
  obtain rfl := Except.ok.inj same
  have retabled := eachItem_retables each changed
  refine layered.resource rfl
    (fun clause listed => ⟨layered.refers.clauses clause listed, layered.clauses clause listed⟩)
    layered.refers.conditions ?_ layered.refers.joins
  intro item member
  rcases List.mem_append.mp member with inFrom | joined
  · obtain ⟨position, at'⟩ := List.getElem?_of_mem inFrom
    obtain ⟨old, present, retables⟩ := forall₂_getElem?_right retabled at'
    have listed : old ∈ scope.select.items :=
      List.mem_append_left _ (List.mem_of_getElem? present)
    exact (layered.fits old listed).retable retables
  · exact layered.fits item (List.mem_append_right _ joined)

/-- A property of what joins check: conditions that are joined inherit it, and those of
relationships among allowed variables have it.
-/
structure Expr.Joinable (allowed : VarId → Prop) (holds : Expr → Prop) : Prop
    extends Inherited holds where
  literal : ∀ value, holds (.literal value)
  edge
    : ∀ {edge : Edge} {placed new condition},
        condition ∈ edge.conditions placed new
        → (∀ id, id ∈ placed ∨ id ∈ new → allowed id)
        → holds condition

theorem Expr.joinable_within : Joinable allowed (Within allowed) := { inherited_within with
  literal := fun _ => within_literal
  edge := fun isCondition all id refers =>
    all id ((Edge.isCondition_of_mem isCondition).references id refers).2
}

namespace Layout

variable {layout later : Layout} {edges : List Edge} {item : FromItem} {holds : Expr → Prop}

/-- The placed variables are allowed, and what joins check has a property. -/
structure Joins (allowed : VarId → Prop) (holds : Expr → Prop) (layout : Layout) : Prop where
  placed : ∀ id ∈ layout.placed, allowed id
  joins : ∀ join ∈ layout.joins, holds join.condition

theorem Joins.mark (known : layout.Joins allowed holds) (supplied : ∀ id ∈ item.ids, allowed id)
    : (layout.mark item).Joins allowed holds where
  placed := fun id member => (mem_mark.mp member).elim (supplied id) (known.placed id)
  joins := known.joins

section Joinable

variable (joinable : Expr.Joinable allowed holds)

include joinable

/-- The conditions of relationships are among what is placed or supplied. -/
theorem Joins.edgeConditions (known : layout.Joins allowed holds)
    (supplied : ∀ id ∈ item.ids, allowed id)
    : ∀ condition ∈ layout.edgeConditions edges item, holds condition := by
  intro condition listed
  obtain ⟨edge, -, isCondition⟩ := List.mem_flatMap.mp listed
  exact joinable.edge isCondition fun id => Or.rec (known.placed id) (supplied id)

/-- An item is joined on the conditions of its relationships and others. -/
theorem Joins.joinOn (known : layout.Joins allowed holds) (supplied : ∀ id ∈ item.ids, allowed id)
    (outer : Bool) {filters : List Expr} (filter : ∀ condition ∈ filters, holds condition)
    : Joins allowed holds
        { layout.mark item with joins := layout.joins
          ++ [layout.joinOn edges outer item filters] } := by
  have conditions : ∀ condition ∈ layout.edgeConditions edges item ++ filters, holds condition :=
    List.forall_mem_append.mpr ⟨known.edgeConditions joinable supplied, filter⟩
  have condition : holds (layout.joinOn edges outer item filters).condition := by
    unfold Layout.joinOn
    cases joined : Expr.conjoin (layout.edgeConditions edges item ++ filters) with
    | none => exact joinable.literal _
    | some condition => exact joinable.conjoin conditions joined
  exact ⟨(known.mark supplied).placed,
    List.forall_mem_append.mpr ⟨known.joins, by simpa using condition⟩⟩

theorem Joins.placeRequired (known : layout.Joins allowed holds)
    (supplied : ∀ id ∈ item.ids, allowed id)
    : (layout.placeRequired edges item).Joins allowed holds := by
  unfold Layout.placeRequired
  split
  · rename_i condition joined
    split
    · exact ⟨(known.mark supplied).placed, known.joins⟩
    · have condition := joinable.conjoin (known.edgeConditions joinable supplied) joined
      exact ⟨(known.mark supplied).placed,
        List.forall_mem_append.mpr ⟨known.joins, by simpa using condition⟩⟩
  · exact ⟨(known.mark supplied).placed, known.joins⟩

/-- Required items are joined, by induction over their number. -/
theorem Joins.placeAllRequired {count : Nat} {waiting : List FromItem}
    (known : layout.Joins allowed holds) (supplied : ∀ item ∈ waiting, ∀ id ∈ item.ids, allowed id)
    (placed : placeAllRequired edges count layout waiting = .ok later)
    : later.Joins allowed holds := by
  induction count generalizing layout waiting with
  | zero => exact Except.ok.inj placed ▸ known
  | succ count ih =>
      unfold Layout.placeAllRequired at placed
      dsimp only at placed
      split at placed
      · exact Except.ok.inj placed ▸ known
      · rename_i item found
        split at placed
        · exact ih (known.placeRequired joinable (supplied item (List.mem_of_getElem? found)))
            (fun item member => supplied item (List.mem_of_mem_eraseIdx member)) placed
        · cases placed

/-- Optional items are joined on conditions that wait as well, by induction over their number. -/
theorem Joins.placeAllOptional {count : Nat} {waiting : List FromItem} {unplaced : NameSet}
    {conditions : List Expr} (known : layout.Joins allowed holds)
    (supplied : ∀ item ∈ waiting, ∀ id ∈ item.ids, allowed id)
    (wait : ∀ condition ∈ conditions, holds condition)
    : (placeAllOptional edges vars count layout waiting unplaced conditions).Joins
      allowed holds := by
  induction count generalizing layout waiting unplaced conditions with
  | zero => exact known
  | succ count ih =>
      unfold Layout.placeAllOptional
      simp only [List.partition_eq_filter_filter]
      split
      · exact known
      · rename_i item found
        have own := supplied item (List.mem_of_getElem? found)
        have others := fun item member => supplied item
          (List.mem_of_mem_eraseIdx (i := layout.nextIndex edges waiting) member)
        have kept {keep : Expr → Bool} : ∀ condition ∈ conditions.filter keep, holds condition :=
          fun condition member => wait condition (List.mem_of_mem_filter member)
        refine ih (known.joinOn joinable own true fun condition member => ?_) others kept
        split at member
        · exact (List.mem_append.mp member).elim (kept condition) (kept condition)
        · exact kept condition member

theorem Joins.placeOptional {items : List FromItem} (known : layout.Joins allowed holds)
    (supplied : ∀ item ∈ items, ∀ id ∈ item.ids, allowed id)
    (wait : ∀ item ∈ items, ∀ condition ∈ item.pending, holds condition)
    (placed : layout.placeOptional edges vars items = .ok later)
    : later.Joins allowed holds := by
  unfold Layout.placeOptional at placed
  split at placed
  · cases placed
  · obtain rfl := Except.ok.inj placed
    refine known.placeAllOptional joinable ?_ ?_
    · intro item member
      obtain ⟨original, listed, rfl⟩ := List.mem_map.mp member
      exact supplied original listed
    · intro condition member
      obtain ⟨item, listed, waits⟩ := List.mem_flatMap.mp member
      exact wait item listed condition waits

end Joinable

end Layout

/-- Items are joined on relationships among what they supply and on the conditions that wait with
the optional ones.
-/
theorem arrange_joins {holds : Expr → Prop} (joinable : Expr.Joinable allowed holds)
    {items : List FromItem} {layout : Layout}
    (supplied : ∀ item ∈ items, ∀ id ∈ item.ids, allowed id)
    (wait : ∀ item ∈ items, item.optional → ∀ condition ∈ item.pending, holds condition)
    (arranged : arrange vars items = .ok layout)
    : layout.Joins allowed holds := by
  obtain ⟨edges, -, arranged⟩ := bind_eq_ok.mp arranged
  simp only [List.partition_eq_filter_filter] at arranged
  obtain ⟨middle, required, optional⟩ := bind_eq_ok.mp arranged
  have start : Layout.empty.Joins allowed holds := ⟨by simp [Layout.empty], by simp [Layout.empty]⟩
  have middleJoins := start.placeAllRequired joinable
    (fun item member => supplied item (List.mem_of_mem_filter member)) required
  have listed : ∀ group ∈ groupByClause (items.filter (not ∘ fun item => !item.optional)),
      ∀ item ∈ group, item ∈ items ∧ item.optional := by
    intro group member item inGroup
    have inGroups := List.mem_flatten.mpr ⟨group, member, inGroup⟩
    simpa using List.mem_filter.mp ((flatten_groupByClause_perm _).mem_iff.mp inGroups)
  generalize groupByClause (items.filter (not ∘ fun item => !item.optional)) = groups
    at optional listed
  clear required
  induction groups generalizing middle with
  | nil => exact Except.ok.inj optional ▸ middleJoins
  | cons group rest ih =>
      obtain ⟨own, listed⟩ := List.forall_mem_cons.mp listed
      obtain ⟨next, places, optional⟩ := bind_eq_ok.mp optional
      refine ih next (middleJoins.placeOptional joinable ?_ ?_ places) optional listed
      · exact fun item member => supplied item (own item member).1
      · exact fun item member => wait item (own item member).1 (own item member).2

/-- A scope stays layered when its sources are arranged, and gets the sources of its model. -/
theorem Scope.Layered.arrangeScope {query : QueryModel} {catalog : Catalog} {model : ScopeModel}
    (layered : scope.Layered query.vars) {result : Scope × VarTable}
    (arranged : arrangeScope catalog scope vars = .ok result)
    (found : query.models[result.1.index]? = some model)
    (joined : query.Joined catalog model result.1)
    : result.1.Layered query.vars := by
  unfold Plan.arrangeScope at arranged
  split at arranged
  · cases arranged
  · obtain ⟨⟨narrowed, later⟩, narrows, arranged⟩ := bind_eq_ok.mp arranged
    obtain ⟨layout, arranges, arranged⟩ := bind_eq_ok.mp arranged
    have narrowedLayered := layered.retable (fun _ _ _ => narrowItem_retables) narrows
    dsimp only at arranged
    split at arranged
    · cases arranged
    · obtain rfl := Except.ok.inj arranged
      have known : layout.Joins (query.vars.Before narrowed.index)
          (Expr.Within (query.vars.Before narrowed.index)) := by
        refine arrange_joins Expr.joinable_within (fun item member => ?_) (fun item member _ => ?_)
          arranges
        · exact (narrowedLayered.sources item (List.mem_append_left _ member)).before
        · exact narrowedLayered.refers.pending item (List.mem_append_left _ member)
      refine narrowedLayered.resource rfl
        (fun clause listed =>
          ⟨narrowedLayered.refers.clauses clause listed, narrowedLayered.clauses clause listed⟩)
        narrowedLayered.refers.conditions (fun item member => ?_) known.joins
      exact ⟨(joined.isSource member).layered found, by simp [(joined.sound item member).1]⟩

end Arrangement

namespace QueryModel

variable {query : QueryModel} {catalog : Catalog} {draft later : Draft} {step next : Step}

theorem blank_layered (vars : VarTable) (kind : ScopeKind) (index : Nat)
    : (Scope.blank kind index).Layered vars where
  refers := by constructor <;> simp [Scope.blank, Select.empty, Select.items]
  items := by simp [Scope.blank]
  clauses := by simp [Scope.blank]
  sources := by simp [Scope.blank, Select.empty, Select.items]

/-- The scopes of a draft are layered. -/
def ScopesLayered (query : QueryModel) (draft : Draft) : Prop :=
  ∀ scope ∈ draft.tree.scopes, scope.Layered query.vars

theorem scopesLayered_of_empty (empty : draft.tree = .empty) : query.ScopesLayered draft := by
  intro scope member
  rw [empty] at member
  obtain rfl := List.mem_singleton.mp member
  exact blank_layered _ _ _

/-- Each step up to the arrangement of the joins keeps the scopes layered. -/
theorem Layered.runStep (layered : query.Layered) (scopes : query.ScopesLayered draft)
    (early : next ∈ Step.arrangeJoins.upTo) (follows : step.Follows next)
    (after : query.After catalog draft step) (afterLater : query.After catalog later next)
    (runs : Plan.runStep catalog next draft = .ok later)
    : query.ScopesLayered later := by
  -- A step that changes each scope by itself relates the scopes before and after it in order.
  have ofRelated {related : Scope → Scope → Prop}
      (all : List.Forall₂ related draft.tree.scopes later.tree.scopes)
      (keeps : ∀ old new, new ∈ later.tree.scopes → related old new → old.Layered query.vars →
        new.Layered query.vars)
      : query.ScopesLayered later := by
    intro scope member
    obtain ⟨position, at'⟩ := List.getElem?_of_mem member
    obtain ⟨old, present, related⟩ := forall₂_getElem?_right all at'
    exact keeps old scope member related (scopes old (List.mem_of_getElem? present))
  cases next with
  | inferTypes => exact scopesLayered_of_empty afterLater.1
  | buildScopes =>
      obtain ⟨-, -, each, -⟩ := afterLater
      intro scope member
      obtain ⟨model, found, same⟩ := each.each scope member
      rw [same]
      exact layered.scopes found
  | nameSubqueries =>
      obtain ⟨-, -, each, -⟩ := afterLater
      intro scope member
      obtain ⟨model, found, same⟩ := each.each scope member
      rw [same]
      exact layered.scopes found
  | findSources =>
      obtain ⟨-, -, each, -⟩ := afterLater
      intro scope member
      obtain ⟨model, found, same⟩ := each.each scope member
      rw [same]
      exact layered.sourced found
  | moveRestrictions =>
      obtain rfl : step = .findSources := by
        revert follows
        cases step <;> decide
      -- The conditions of a scope are moved while those of the scopes behind it still wait.
      obtain ⟨all, -⟩ := Draft.eachScope_ok
        (fun rest vars =>
          VarTable.Restricted query.vars vars ∧ ∀ scope ∈ rest, scope.Layered query.vars)
        (fun _ new => new.Layered query.vars) runs ⟨after.1.restricted layered, scopes⟩
        fun scope rest vars result ⟨restricted, waiting⟩ moved => by
          obtain ⟨first, others⟩ := List.forall_mem_cons.mp waiting
          obtain ⟨changed, kept⟩ := first.moveInScope restricted moved
          exact ⟨changed, kept, others⟩
      exact ofRelated all fun _ _ _ changed _ => changed
  | resolveTables =>
      obtain ⟨all, -⟩ := Draft.eachScope_ok (fun _ _ => True)
        (fun old new => old.Layered query.vars → new.Layered query.vars) runs trivial
        fun scope rest vars result _ resolved =>
          ⟨fun layeredScope => layeredScope.retable (fun _ _ _ => resolveItem_retables) resolved,
            trivial⟩
      exact ofRelated all fun _ _ _ keeps => keeps
  | arrangeJoins =>
      obtain ⟨-, each, -⟩ := afterLater
      obtain ⟨all, -⟩ := Draft.eachScope_ok (fun _ _ => True)
        (fun old new => ∀ model : ScopeModel,
          query.models[new.index]? = some model
          → query.Joined catalog model new
          → old.Layered query.vars
          → new.Layered query.vars) runs trivial
        fun scope rest vars result _ arranged =>
          ⟨fun model found joined layeredScope => layeredScope.arrangeScope arranged found joined,
            trivial⟩
      refine ofRelated all fun old new member keeps => ?_
      obtain ⟨model, found, joined, -⟩ := each.each new member
      exact keeps model found joined
  | _ => exact absurd early (by decide)

/-- A run of such steps keeps the scopes layered, by induction over the steps. -/
theorem Layered.runSteps (layered : query.Layered) (scopes : query.ScopesLayered draft)
    {steps : List Step} (early : ∀ next ∈ steps, next ∈ Step.arrangeJoins.upTo)
    (follow : List.IsChain Step.Follows (step :: steps)) (meets : ∀ next ∈ steps, query.Meets next)
    (after : query.After catalog draft step) (runs : Plan.runSteps catalog steps draft = .ok later)
    : query.ScopesLayered later := by
  induction steps generalizing draft step with
  | nil => exact Except.ok.inj runs ▸ scopes
  | cons next rest ih =>
      obtain ⟨first, others⟩ := List.isChain_cons_cons.mp follow
      obtain ⟨isEarly, early⟩ := List.forall_mem_cons.mp early
      obtain ⟨meetsFirst, meets⟩ := List.forall_mem_cons.mp meets
      obtain ⟨middle, runsFirst, runs⟩ := bind_eq_ok.mp runs
      have afterFirst := (after.step_safely meetsFirst first).of_ok runsFirst
      have kept := layered.runStep scopes isEarly first after afterFirst runsFirst
      exact ih kept early others meets afterFirst runs

/-- The scopes of a query are layered after each step up to the arrangement of the joins. -/
theorem Layered.scopesLayered (layered : query.Layered)
    (after : query.After catalog draft .collectVariables) (early : step ∈ Step.arrangeJoins.upTo)
    (runs : Plan.runSteps catalog step.upTo draft = .ok later)
    : query.ScopesLayered later := by
  obtain ⟨member, inside, -⟩ := Step.upTo_early early
  exact layered.runSteps (scopesLayered_of_empty after.1) inside (Step.upTo_follows member).1
    (after.meets early runs) after runs

end QueryModel

end CypherSql.Plan
