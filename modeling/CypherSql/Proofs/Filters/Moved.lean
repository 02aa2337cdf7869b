import CypherSql.Proofs.Filters.Written
import CypherSql.Proofs.Pipeline

/-! Where the conditions of a scope wait until its joins are arranged: those of the
`WITH` before it and of its required clauses in its `WHERE`, those of an optional clause with the
items of the clause.
-/

namespace CypherSql.Plan

/-- The conditions that are pending with the items of a clause. -/
def pendingAt (items : List FromItem) (position : Nat) : List Expr :=
  (items.filter (·.clause = some position)).flatMap (·.pending)

/-- The condition of a clause itself, taken apart. -/
def ReadingClause.ownConditions (clause : ReadingClause) : List Expr :=
  clause.condition.elim [] Expr.conjuncts

namespace ScopeModel

/-- The conditions that belong into the `WHERE` of a scope. -/
def requiredConditions (vars : VarTable) (model : ScopeModel) : List Expr :=
  model.filter.elim [] Expr.conjuncts
    ++ (model.clauses.filter (!·.optional)).flatMap (·.conditions vars)

/-- The conditions of the clause at a position, if it is an optional one. -/
def optionalConditions (vars : VarTable) (model : ScopeModel) (position : Nat) : List Expr :=
  (model.clauses[position]?.filter (·.optional)).elim [] (·.conditions vars)

/-- The conditions of the model are where they have to wait, and none is left with its clause. -/
structure Routes (vars : VarTable) (model : ScopeModel) (scope : Scope) : Prop where
  conditions : scope.select.conditions.Perm (model.requiredConditions vars)
  pending
    : ∀ position,
        (pendingAt scope.select.fromItems position).Perm (model.optionalConditions vars position)
  numbered : ∀ item ∈ scope.select.fromItems, item.optional = true → item.clause.isSome
  cleared : ∀ clause ∈ scope.clauses, clause.condition = none

end ScopeModel

/-- The conditions on the variable of a table item. -/
def FromItem.restrictions (vars : VarTable) (item : FromItem) : List Expr :=
  item.tableVar?.elim [] vars.conditionsOn

/-- The item with the conditions on its variable pending, if it is optional. -/
def FromItem.restricted (vars : VarTable) (item : FromItem) : FromItem :=
  if item.optional then { item with pending := item.pending ++ item.restrictions vars } else item

theorem FromItem.clause_restricted (vars : VarTable) (item : FromItem)
    : (item.restricted vars).clause = item.clause := by
  unfold FromItem.restricted
  split <;> rfl

theorem FromItem.optional_restricted (vars : VarTable) (item : FromItem)
    : (item.restricted vars).optional = item.optional := by
  unfold FromItem.restricted
  split <;> rfl

/-- The conditions on a variable stay when another one is redefined. -/
theorem VarTable.conditionsOn_redefine {vars : VarTable} {id other : VarId} (different : other ≠ id)
    (definition : Definition)
    : ((vars.redefine id definition).refresh id).conditionsOn other = vars.conditionsOn other := by
  simp [VarTable.conditionsOn, VarTable.definition?, VarTable.get?_redefine, different]

/-- What is taken off a variable are the conditions on it. -/
theorem VarTable.conditionsOn_eq {vars : VarTable} {id : VarId} {restriction : Option Expr}
    {definition : Definition}
    (taken : (vars.definition? id).bind takeRestriction = some (restriction, definition))
    : restriction.elim [] Expr.conjuncts = vars.conditionsOn id := by
  obtain ⟨old, found, taken⟩ := Option.bind_eq_some_iff.mp taken
  rw [VarTable.conditionsOn, found]
  cases old with
  | node node => cases taken; rfl
  | relationship rel => cases taken; rfl
  | _ => cases taken

/-- The conditions on the variables of tables are moved as they are, by induction over the items. No
other variable is changed.
-/
theorem moveItemRestrictions_eq {items : List FromItem} {vars : VarTable}
    (distinct : (items.filterMap FromItem.tableVar?).Nodup)
    {result : List FromItem × List Expr × VarTable}
    (moved : moveItemRestrictions items vars = .ok result)
    : result.1 = items.map (·.restricted vars)
      ∧ result.2.1 = (items.filter (!·.optional)).flatMap (·.restrictions vars)
      ∧ ∀ id ∉ items.filterMap FromItem.tableVar?,
          result.2.2.conditionsOn id = vars.conditionsOn id := by
  induction items generalizing vars result with
  | nil =>
      obtain rfl := Except.ok.inj moved
      exact ⟨rfl, rfl, fun _ _ => rfl⟩
  | cons item rest ih =>
      unfold moveItemRestrictions at moved
      split at moved
      · rename_i noTable
        rw [List.filterMap_cons_none noTable] at distinct ⊢
        obtain ⟨⟨items, ofRest, later⟩, movedRest, same⟩ := bind_eq_ok.mp moved
        obtain rfl := Except.ok.inj same
        obtain ⟨sameItems, sameMoved, others⟩ := ih distinct movedRest
        have unrestricted : item.restrictions vars = [] := by simp [FromItem.restrictions, noTable]
        refine ⟨?_, ?_, others⟩
        · dsimp only at sameItems ⊢
          simp [sameItems, FromItem.restricted, unrestricted]
        · dsimp only at sameMoved ⊢
          rw [sameMoved, List.filter_cons]
          split <;> simp [unrestricted]
      · rename_i id isTable
        rw [List.filterMap_cons_some isTable] at distinct ⊢
        obtain ⟨first, distinct⟩ := List.nodup_cons.mp distinct
        split at moved
        · cases moved
        · rename_i restriction definition taken
          obtain ⟨⟨items, ofRest, later⟩, movedRest, same⟩ := bind_eq_ok.mp moved
          obtain ⟨sameItems, sameMoved, others⟩ := ih distinct movedRest
          have own : item.restrictions vars = restriction.elim [] Expr.conjuncts := by
            simp [FromItem.restrictions, isTable, VarTable.conditionsOn_eq taken]
          -- The variables of the other items are others, so that the conditions on them are there.
          have unchanged : ∀ other ∈ rest,
              other.restrictions ((vars.redefine id definition).refresh id)
              = other.restrictions vars := by
            intro other member
            unfold FromItem.restrictions
            cases found : other.tableVar? with
            | none => rfl
            | some var =>
                have listed : var ∈ rest.filterMap FromItem.tableVar? :=
                  List.mem_filterMap.mpr ⟨other, member, found⟩
                have different : var ≠ id := by
                  rintro rfl
                  exact first listed
                exact VarTable.conditionsOn_redefine different definition
          have sameRest : items = rest.map (·.restricted vars) := by
            refine sameItems.trans (List.map_congr_left fun other member => ?_)
            rw [FromItem.restricted, FromItem.restricted, unchanged other member]
          have sameOfRest : ofRest = (rest.filter (!·.optional)).flatMap (·.restrictions vars) := by
            refine sameMoved.trans (List.flatMap_congr fun other member => ?_)
            exact unchanged other (List.mem_filter.mp member).1
          have kept : ∀ other ∉ id :: rest.filterMap FromItem.tableVar?,
              later.conditionsOn other = vars.conditionsOn other := by
            intro other absent
            obtain ⟨different, absent⟩ := List.ne_and_not_mem_of_not_mem_cons absent
            exact (others other absent).trans (VarTable.conditionsOn_redefine different definition)
          dsimp only at same
          split at same
          · rename_i isOptional
            obtain rfl := Except.ok.inj same
            refine ⟨?_, ?_, kept⟩
            · simp [sameRest, FromItem.restricted, isOptional, own]
            · simp [sameOfRest, isOptional]
          · rename_i isRequired
            obtain rfl := Except.ok.inj same
            refine ⟨?_, ?_, kept⟩
            · simp [sameRest, FromItem.restricted, isRequired]
            · simp [sameOfRest, isRequired, own]

/-- Conditions that are added to an item of a clause are pending there, and nowhere else. -/
theorem pendingAt_addPendingFirst? {clause : Nat} {conditions : List Expr}
    {items later : List FromItem} (added : addPendingFirst? clause conditions items = some later)
    (position : Nat)
    : (pendingAt later position).Perm
        (pendingAt items position ++ if position = clause then conditions else []) := by
  induction items generalizing later with
  | nil => cases added
  | cons item rest ih =>
      unfold addPendingFirst? at added
      split at added
      · rename_i inClause
        obtain rfl := Option.some.inj added
        by_cases here : position = clause
        · subst here
          simp only [pendingAt, inClause, decide_true, List.filter_cons_of_pos, List.flatMap_cons,
            if_true, List.append_assoc]
          exact List.Perm.append_left _ List.perm_append_comm
        · have other : clause ≠ position := fun same => here same.symm
          simp [pendingAt, inClause, here, other]
      · obtain ⟨others, found, rfl⟩ := Option.map_eq_some_iff.mp added
        have perm := ih found
        simp only [pendingAt, List.filter_cons]
        split
        · simp only [List.flatMap_cons, List.append_assoc]
          exact perm.append_left _
        · exact perm

theorem pendingAt_append (first second : List FromItem) (position : Nat)
    : pendingAt (first ++ second) position
      = pendingAt first position ++ pendingAt second position := by
  simp [pendingAt]

theorem pendingAt_perm {first second : List FromItem} (perm : first.Perm second) (position : Nat)
    : (pendingAt first position).Perm (pendingAt second position) :=
  (perm.filter _).flatMap_right _

theorem pendingAt_addPending? {clause : Nat} {conditions : List Expr} {items later : List FromItem}
    (added : addPending? clause conditions items = some later) (position : Nat)
    : (pendingAt later position).Perm
        (pendingAt items position ++ if position = clause then conditions else []) := by
  obtain ⟨reversed, found, rfl⟩ := Option.map_eq_some_iff.mp added
  have reversed := pendingAt_addPendingFirst? found position
  refine (pendingAt_perm (List.reverse_perm _) position).trans (reversed.trans ?_)
  exact (pendingAt_perm (List.reverse_perm _) position).append_right _

/-- Items that get pending conditions keep their clauses. -/
theorem numbered_addPending? {clause : Nat} {conditions : List Expr} {items later : List FromItem}
    (added : addPending? clause conditions items = some later)
    (numbered : ∀ item ∈ items, item.optional = true → item.clause.isSome)
    : ∀ item ∈ later, item.optional = true → item.clause.isSome := by
  obtain ⟨reversed, found, rfl⟩ := Option.map_eq_some_iff.mp added
  have changed := QueryModel.addPendingFirst?_forall₂ found
  intro item member
  obtain ⟨index, at'⟩ := List.mem_iff_getElem?.mp (List.mem_reverse.mp member)
  obtain ⟨old, present, same⟩ := forall₂_getElem?_right changed at'
  have before := numbered old (List.mem_reverse.mp (List.mem_of_getElem? present))
  rcases same with rfl | ⟨inClause, rfl⟩
  · exact before
  · exact before

/-- Clauses are left without their conditions, by induction over them. Nothing else of a clause
changes.
-/
theorem moveClauseConditions_clears {scope : Nat} {clauses : List (ReadingClause × Nat)}
    {items : List FromItem} {result : List ReadingClause × List FromItem × List Expr}
    (moved : moveClauseConditions scope clauses items = .ok result)
    : result.1 = clauses.map fun entry => { entry.1 with condition := none } := by
  induction clauses generalizing items result with
  | nil =>
      obtain rfl := Except.ok.inj moved
      rfl
  | cons entry rest ih =>
      obtain ⟨clause, position⟩ := entry
      unfold moveClauseConditions at moved
      split at moved
      · rename_i none
        obtain ⟨later, movedRest, same⟩ := bind_eq_ok.mp moved
        obtain rfl := Except.ok.inj same
        have own : clause = { clause with condition := Option.none } := by rw [← none]
        rw [List.map_cons, ← ih movedRest, ← own]
      · dsimp only at moved
        split at moved
        · split at moved
          · cases moved
          · obtain ⟨later, movedRest, same⟩ := bind_eq_ok.mp moved
            obtain rfl := Except.ok.inj same
            rw [List.map_cons, ← ih movedRest]
        · obtain ⟨later, movedRest, same⟩ := bind_eq_ok.mp moved
          obtain rfl := Except.ok.inj same
          rw [List.map_cons, ← ih movedRest]

/-- The conditions of clauses are moved as they are, by induction over the clauses. -/
theorem moveClauseConditions_perm {scope : Nat} {clauses : List (ReadingClause × Nat)}
    {items : List FromItem}
    (numbered : ∀ item ∈ items, item.optional = true → item.clause.isSome)
    {result : List ReadingClause × List FromItem × List Expr}
    (moved : moveClauseConditions scope clauses items = .ok result)
    : (∀ item ∈ result.2.1, item.optional = true → item.clause.isSome)
      ∧ result.2.2 = (clauses.filter (!·.1.optional)).flatMap (·.1.ownConditions)
      ∧ ∀ position,
          (pendingAt result.2.1 position).Perm
            (pendingAt items position
              ++ (clauses.filter fun entry => entry.1.optional && entry.2 = position).flatMap
                (·.1.ownConditions)) := by
  induction clauses generalizing items result with
  | nil =>
      obtain rfl := Except.ok.inj moved
      exact ⟨numbered, rfl, fun _ => by simp⟩
  | cons entry rest ih =>
      obtain ⟨clause, index⟩ := entry
      unfold moveClauseConditions at moved
      split at moved
      · rename_i none
        have own : clause.ownConditions = [] := by simp [ReadingClause.ownConditions, none]
        obtain ⟨⟨cleared, later, ofRest⟩, movedRest, same⟩ := bind_eq_ok.mp moved
        obtain rfl := Except.ok.inj same
        obtain ⟨numbered, sameMoved, perm⟩ := ih numbered movedRest
        refine ⟨numbered, ?_, fun position => ?_⟩
        · dsimp only at sameMoved ⊢
          rw [sameMoved, List.filter_cons]
          split <;> simp [own]
        · rw [List.filter_cons]
          split
          · simpa [own] using perm position
          · exact perm position
      · rename_i condition restricted
        have own : clause.ownConditions = condition.conjuncts := by
          simp [ReadingClause.ownConditions, restricted]
        dsimp only at moved
        split at moved
        · rename_i isOptional
          split at moved
          · cases moved
          · rename_i middle added
            obtain ⟨⟨cleared, later, ofRest⟩, movedRest, same⟩ := bind_eq_ok.mp moved
            obtain rfl := Except.ok.inj same
            obtain ⟨numbered, sameMoved, perm⟩ := ih (numbered_addPending? added numbered) movedRest
            refine ⟨numbered, by simpa [isOptional] using sameMoved, fun position => ?_⟩
            refine (perm position).trans ?_
            refine ((pendingAt_addPending? added position).append_right _).trans (.of_eq ?_)
            -- The condition waits at an item of its own clause, and at no other position.
            by_cases here : position = index
            · simp [isOptional, here, own]
            · have other : index ≠ position := fun same => here same.symm
              simp [isOptional, here, other]
        · rename_i isRequired
          obtain ⟨⟨cleared, later, ofRest⟩, movedRest, same⟩ := bind_eq_ok.mp moved
          obtain rfl := Except.ok.inj same
          obtain ⟨numbered, sameMoved, perm⟩ := ih numbered movedRest
          refine ⟨numbered, ?_, fun position => ?_⟩
          · dsimp only at sameMoved ⊢
            simp [sameMoved, isRequired, own]
          · simpa [isRequired] using perm position

/-- Parts of some items of a list are those of all items where the others have none. -/
theorem flatMap_filter {α β : Type} (keep : α → Bool) (parts : α → List β) (items : List α)
    : (items.filter keep).flatMap parts = items.flatMap fun item =>
      if keep item then parts item else [] := by
  induction items with
  | nil => rfl
  | cons item rest ih =>
      rw [List.filter_cons, List.flatMap_cons]
      split
      · rw [List.flatMap_cons, ih]
      · exact ih

/-- A position is that of one item of a list at most, by induction over the list. -/
theorem filter_zipIdx {α : Type} (items : List α) (offset position : Nat)
    : (items.zipIdx offset).filter (·.2 = offset + position)
      = items[position]?.elim [] fun item => [(item, offset + position)] := by
  induction items generalizing offset position with
  | nil => rfl
  | cons item rest ih =>
      rw [List.zipIdx_cons, List.filter_cons]
      cases position with
      | zero =>
          have none : (rest.zipIdx (offset + 1)).filter (·.2 = offset) = [] := by
            rw [List.filter_eq_nil_iff]
            intro entry member
            have bound := (List.mem_zipIdx member).1
            simp only [decide_eq_true_eq]
            omega
          simp [none]
      | succ position =>
          have next := ih (offset + 1) position
          have shifted : offset + 1 + position = offset + (position + 1) := by omega
          rw [shifted] at next
          simpa using next

/-- The items of a clause are the tables of its variables. -/
theorem filter_tableItems (scope : Scope) (position : Nat)
    : (tableItems scope).filter (·.clause = some position)
      = scope.clauses[position]?.elim [] fun clause =>
          clause.ids.map fun id => .ofTable id position clause.optional := by
  have own := filter_zipIdx scope.clauses 0 position
  simp only [Nat.zero_add] at own
  have split
      : (tableItems scope).filter (·.clause = some position)
        = (scope.clauses.zipIdx.filter (·.2 = position)).flatMap fun entry =>
            entry.1.ids.map fun id => .ofTable id entry.2 entry.1.optional := by
    rw [tableItems, List.filter_flatMap, flatMap_filter]
    refine List.flatMap_congr fun entry _ => ?_
    by_cases here : entry.2 = position
    · simp [here, List.filter_map, Function.comp_def, FromItem.ofTable]
    · simp [here, List.filter_map, Function.comp_def, FromItem.ofTable]
  rw [split, own]
  cases scope.clauses[position]? with
  | none => rfl
  | some clause => simp

theorem filterMap_tableVar?_tableItems (scope : Scope)
    : (tableItems scope).filterMap FromItem.tableVar? = clauseIds scope.clauses := by
  rw [tableItems, List.filterMap_flatMap]
  simp only [List.filterMap_map, Function.comp_def, FromItem.ofTable, FromItem.tableVar?,
    List.filterMap_some]
  rw [clauseIds, ← List.zipIdx_map_fst 0 scope.clauses, List.flatMap_map]
  simp

/-- The conditions on the variables of the required clauses of a scope. -/
theorem flatMap_restrictions_tableItems (vars : VarTable) (scope : Scope)
    : ((tableItems scope).filter (!·.optional)).flatMap (·.restrictions vars)
      = (scope.clauses.filter (!·.optional)).flatMap (·.ids.flatMap vars.conditionsOn) := by
  rw [flatMap_filter, flatMap_filter, tableItems, List.flatMap_assoc,
    ← List.zipIdx_map_fst 0 scope.clauses, List.flatMap_map]
  simp only [List.zipIdx_map_fst]
  refine List.flatMap_congr fun entry _ => ?_
  cases entry.1.optional <;>
    simp [List.flatMap_map, FromItem.ofTable, FromItem.restrictions, FromItem.tableVar?]

/-- The conditions that are pending with a clause once those of the patterns are moved. -/
theorem pendingAt_restricted_tableItems (vars : VarTable) (scope : Scope) (position : Nat)
    : pendingAt ((tableItems scope).map (·.restricted vars)) position
      = (scope.clauses[position]?.filter (·.optional)).elim []
          (·.ids.flatMap vars.conditionsOn) := by
  rw [pendingAt, List.filter_map]
  simp only [Function.comp_def, FromItem.clause_restricted]
  rw [filter_tableItems]
  cases scope.clauses[position]? with
  | none => rfl
  | some clause =>
      cases isOptional : clause.optional <;>
        simp [Option.filter, isOptional, List.flatMap_map, FromItem.restricted,
          FromItem.restrictions, FromItem.ofTable, FromItem.tableVar?]

namespace QueryModel

variable {query : QueryModel} {vars : VarTable} {index : Nat} {model : ScopeModel}

/-- The subquery before a scope has no conditions. -/
theorem innerItems_eq (query : QueryModel) (index : Nat)
    : ∀ item ∈ query.innerItems index,
        item.optional = false ∧ item.clause = none ∧ item.tableVar? = none := by
  intro item member
  cases index with
  | zero => simp [innerItems] at member
  | succ before =>
      obtain rfl := List.mem_singleton.mp member
      exact ⟨rfl, rfl, rfl⟩

theorem filterMap_tableVar?_sources (query : QueryModel) (index : Nat) (model : ScopeModel)
    : (query.sources index model).filterMap FromItem.tableVar? = clauseIds model.clauses := by
  have inner : (query.innerItems index).filterMap FromItem.tableVar? = [] :=
    List.filterMap_eq_nil_iff.mpr fun item member => (innerItems_eq query index item member).2.2
  rw [sources, List.filterMap_append, inner, filterMap_tableVar?_tableItems]
  rfl

/-- The conditions of a scope are moved to where they have to wait, as long as those on its
variables are the collected ones. No other variable is changed.
-/
theorem moveInScope_routes (found : query.models[index]? = some model)
    (intact : ∀ id ∈ clauseIds model.clauses, vars.conditionsOn id = query.vars.conditionsOn id)
    {result : Scope × VarTable} (moved : moveInScope (query.sourced model index) vars = .ok result)
    : model.Routes query.vars result.1
      ∧ ∀ id ∉ clauseIds model.clauses, result.2.conditionsOn id = vars.conditionsOn id := by
  have tables := filterMap_tableVar?_sources query index model
  have distinct := (query.collected.inScope found).clauses.distinct
  obtain ⟨⟨items, ofItems, later⟩, movedItems, moved⟩ := bind_eq_ok.mp moved
  obtain ⟨⟨cleared, placed, ofClauses⟩, movedClauses, same⟩ := bind_eq_ok.mp moved
  obtain rfl := Except.ok.inj same
  obtain ⟨sameItems, sameOfItems, kept⟩ :=
    moveItemRestrictions_eq (tables ▸ distinct) movedItems
  have sameItems : items = (query.sources index model).map (·.restricted vars) := sameItems
  have numbered : ∀ item ∈ items, item.optional = true → item.clause.isSome := by
    rw [sameItems]
    intro item member isOptional
    obtain ⟨source, listed, rfl⟩ := List.mem_map.mp member
    rw [FromItem.clause_restricted]
    rw [FromItem.optional_restricted] at isOptional
    cases isSource_of_mem listed with
    | subquery behind => cases isOptional
    | table found declared => rfl
  obtain ⟨numbered, sameOfClauses, perm⟩ := moveClauseConditions_perm numbered movedClauses
  have sameIds {clause : ReadingClause} (member : clause ∈ model.clauses)
      : clause.ids.flatMap vars.conditionsOn = clause.ids.flatMap query.vars.conditionsOn :=
    List.flatMap_congr fun id declared =>
      intact id (List.mem_flatMap.mpr ⟨clause, member, declared⟩)
  have clears : cleared = _ := moveClauseConditions_clears movedClauses
  have cleared : ∀ clause ∈ cleared, clause.condition = none := by
    rw [clears]
    exact List.forall_mem_map.mpr fun _ _ => rfl
  refine ⟨⟨?_, fun position => ?_, numbered, cleared⟩, tables ▸ kept⟩
  · -- The item of a subquery is no table, and no conditions come from it.
    have ofInner
        : ((query.innerItems index).filter (!·.optional)).flatMap (·.restrictions vars) = [] := by
      refine List.flatMap_eq_nil_iff.mpr fun item member => ?_
      obtain ⟨-, -, noTable⟩ := innerItems_eq query index item (List.mem_filter.mp member).1
      simp [FromItem.restrictions, noTable]
    have ofTables : ofItems
        = (model.clauses.filter (!·.optional)).flatMap (·.ids.flatMap query.vars.conditionsOn) := by
      refine sameOfItems.trans ?_
      have sources : (query.sourced model index).select.fromItems
          = query.innerItems index ++ tableItems (model.scope index) := rfl
      rw [sources, List.filter_append, List.flatMap_append, ofInner, List.nil_append,
        flatMap_restrictions_tableItems]
      exact List.flatMap_congr fun clause member => sameIds (List.mem_filter.mp member).1
    have ofOwn : ofClauses = (model.clauses.filter (!·.optional)).flatMap (·.ownConditions) := by
      refine sameOfClauses.trans ?_
      have clauses : (query.sourced model index).clauses = model.clauses := rfl
      rw [clauses, flatMap_filter, flatMap_filter]
      conv_rhs => rw [← List.zipIdx_map_fst 0 model.clauses, List.flatMap_map]
    dsimp only
    rw [ofTables, ofOwn, List.append_assoc]
    exact (List.flatMap_append_perm _ _ _).append_left _
  · have ofInner : pendingAt ((query.innerItems index).map (·.restricted vars)) position = [] := by
      refine List.flatMap_eq_nil_iff.mpr fun item member => ?_
      obtain ⟨listed, inClause⟩ := List.mem_filter.mp member
      obtain ⟨source, isInner, rfl⟩ := List.mem_map.mp listed
      rw [FromItem.clause_restricted, (innerItems_eq query index source isInner).2.1] at inClause
      simp at inClause
    have ofItems : pendingAt items position
        = (model.clauses[position]?.filter (·.optional)).elim []
            (·.ids.flatMap query.vars.conditionsOn) := by
      rw [sameItems, sources, List.map_append, pendingAt_append, ofInner, List.nil_append,
        pendingAt_restricted_tableItems]
      have clauses : (model.scope index).clauses = model.clauses := rfl
      rw [clauses]
      cases at' : model.clauses[position]?.filter (·.optional) with
      | none => rfl
      | some clause =>
          exact sameIds (List.mem_of_getElem? (Option.filter_eq_some_iff.mp at').1)
    have ofOwn
        : ((query.sourced model index).clauses.zipIdx.filter fun entry =>
              entry.1.optional && entry.2 = position).flatMap (·.1.ownConditions)
          = (model.clauses[position]?.filter (·.optional)).elim [] (·.ownConditions) := by
      have own := filter_zipIdx model.clauses 0 position
      simp only [Nat.zero_add] at own
      have clauses : (query.sourced model index).clauses = model.clauses := rfl
      rw [clauses, ← List.filter_filter, own]
      cases model.clauses[position]? with
      | none => rfl
      | some clause => cases isOptional : clause.optional <;> simp [Option.filter, isOptional]
    refine (perm position).trans (.of_eq ?_)
    rw [ofItems, ofOwn, ScopeModel.optionalConditions]
    cases model.clauses[position]?.filter (·.optional) <;> rfl

end QueryModel

/-- The types of projected variables are no conditions, by induction over the variables. -/
theorem inferTypesOf_conditionsOn {ids : List VarId} {vars later : VarTable}
    (succeeded : inferTypesOf ids vars = .ok later) (id : VarId)
    : later.conditionsOn id = vars.conditionsOn id := by
  induction ids generalizing vars with
  | nil =>
      obtain rfl := Except.ok.inj succeeded
      rfl
  | cons first rest ih =>
      unfold inferTypesOf at succeeded
      split at succeeded
      · rename_i expr found
        obtain ⟨type, -, succeeded⟩ := bind_eq_ok.mp succeeded
        rw [ih succeeded]
        obtain ⟨var, present, kind⟩ := VarTable.definition?_eq_some.mp found
        simp only [VarTable.conditionsOn, VarTable.definition?, VarTable.get?_redefine]
        by_cases same : id = first
        · simp [same, present, kind, Definition.restriction?]
        · simp [same]
      · exact ih succeeded

theorem inferTypes_conditionsOn {draft later : Draft} (succeeded : inferTypes draft = .ok later)
    (id : VarId)
    : later.vars.conditionsOn id = draft.vars.conditionsOn id := by
  obtain ⟨vars, inferred, succeeded⟩ := bind_eq_ok.mp succeeded
  split at succeeded
  · cases succeeded
  · obtain rfl := Except.ok.inj succeeded
    exact inferTypesOf_conditionsOn inferred id

theorem buildScopes_vars {draft later : Draft} (succeeded : buildScopes draft = .ok later)
    : later.vars = draft.vars := by
  unfold buildScopes at succeeded
  split at succeeded
  · cases succeeded
  · obtain ⟨⟨subqueries, root⟩, -, succeeded⟩ := bind_eq_ok.mp succeeded
    cases root with
    | none => cases succeeded
    | some root =>
        obtain rfl := Except.ok.inj succeeded
        rfl

theorem nameSubqueries_vars {draft later : Draft} (succeeded : nameSubqueries draft = .ok later)
    : later.vars = draft.vars := by
  obtain ⟨⟨subqueries, naming⟩, -, same⟩ := bind_eq_ok.mp succeeded
  obtain rfl := Except.ok.inj same
  rfl

theorem findSources_vars {draft later : Draft} (succeeded : findSources draft = .ok later)
    : later.vars = draft.vars := by
  obtain ⟨supplied, -, succeeded⟩ := bind_eq_ok.mp succeeded
  obtain ⟨tree, -, same⟩ := bind_eq_ok.mp succeeded
  obtain rfl := Except.ok.inj same
  rfl

/-- Until the sources are found, the conditions on variables are those that were collected. -/
theorem conditionsOn_of_findSources {catalog : Catalog} {draft later : Draft}
    (runs : runSteps catalog Step.findSources.upTo draft = .ok later) (id : VarId)
    : later.vars.conditionsOn id = draft.vars.conditionsOn id := by
  have steps
      : Step.findSources.upTo = [.inferTypes, .buildScopes, .nameSubqueries, .findSources] := by
    decide
  rw [steps] at runs
  simp only [runSteps, List.foldlM_cons, List.foldlM_nil, runStep, bind_pure] at runs
  obtain ⟨first, typed, runs⟩ := bind_eq_ok.mp runs
  obtain ⟨second, built, runs⟩ := bind_eq_ok.mp runs
  obtain ⟨third, named, sourced⟩ := bind_eq_ok.mp runs
  rw [findSources_vars sourced, nameSubqueries_vars named, buildScopes_vars built,
    inferTypes_conditionsOn typed]

/-- Scopes that still have the conditions on their variables: each is that of a model with its
sources, and has a variable in common with none of the others.
-/
structure QueryModel.Intact (query : QueryModel) (scopes : List Scope) (vars : VarTable)
    : Prop where
  sourced
    : ∀ scope ∈ scopes,
        ∃ model,
          query.models[scope.index]? = some model ∧ scope = query.sourced model scope.index
  distinct : (scopes.map (·.index)).Nodup
  conditions
    : ∀ scope ∈ scopes,
        ∀ id ∈ clauseIds scope.clauses, vars.conditionsOn id = query.vars.conditionsOn id

/-- The conditions of the first scope are moved to where they have to wait, and the others stay
intact.
-/
theorem QueryModel.Intact.moveInScope {query : QueryModel} {scope : Scope} {rest : List Scope}
    {vars : VarTable} (intact : query.Intact (scope :: rest) vars) {result : Scope × VarTable}
    (moved : moveInScope scope vars = .ok result)
    : (∀ model, query.models[scope.index]? = some model → model.Routes query.vars result.1)
      ∧ query.Intact rest result.2 := by
  have ids {other : Scope} {model : ScopeModel} (same : other = query.sourced model other.index)
      : clauseIds other.clauses = clauseIds model.clauses := by
    rw [same]
    rfl
  obtain ⟨model, found, same⟩ := intact.sourced scope (by simp)
  obtain ⟨first, distinct⟩ := List.nodup_cons.mp intact.distinct
  have own := intact.conditions scope (by simp)
  rw [ids same] at own
  rw [same] at moved
  obtain ⟨routes, kept⟩ := QueryModel.moveInScope_routes found own moved
  refine ⟨fun other found' => ?_, fun other member => intact.sourced other (by simp [member]),
    distinct, fun other member id declared => ?_⟩
  · obtain rfl := Option.some.inj (found.symm.trans found')
    exact routes
  · rw [← intact.conditions other (by simp [member]) id declared]
    apply kept
    intro declared'
    -- Both scopes would declare the variable, and it is declared in one scope only.
    obtain ⟨model', found', same'⟩ := intact.sourced other (by simp [member])
    obtain ⟨var, present, here, -⟩ := query.element_of_mem_clauseIds found declared'
    obtain ⟨var', present', there, -⟩ :=
      query.element_of_mem_clauseIds found' (ids same' ▸ declared)
    obtain rfl := Option.some.inj (present.symm.trans present')
    exact first (List.mem_map.mpr ⟨other, member, there.symm.trans here⟩)

/-- The conditions of a query are moved to where they have to wait. -/
theorem QueryModel.moveRestrictions_routes {query : QueryModel} {draft later : Draft}
    (each : draft.tree.Each query.models fun model scope => scope = query.sourced model scope.index)
    (collected : ∀ id, draft.vars.conditionsOn id = query.vars.conditionsOn id)
    (succeeded : moveRestrictions draft = .ok later)
    : List.Forall₂ (ScopeModel.Routes query.vars) query.models later.tree.scopes := by
  have intact : query.Intact draft.tree.scopes draft.vars := by
    refine ⟨each.each, ?_, fun _ _ id _ => collected id⟩
    rw [each.indexed]
    exact List.nodup_range
  obtain ⟨routes, -⟩ := Draft.eachScope_ok query.Intact
    (fun old new => ∀ model, query.models[old.index]? = some model → model.Routes query.vars new)
    succeeded intact fun _ _ _ _ intact moved => intact.moveInScope moved
  refine forall₂_comp each.forall₂_models routes ?_
  intro model old new fits routes
  exact routes model fits.1

end CypherSql.Plan
