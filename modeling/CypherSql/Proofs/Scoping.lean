import CypherSql.Plan.Draft
import CypherSql.Proofs.Expressions
import CypherSql.Proofs.Variables.WellFormed

/-! What each scope of a query may refer to: variables that the scope before passes on, and those
that its own clauses declare up to the place of the reference.
-/

namespace CypherSql.Plan

/-- The items of a projection pass a variable on: one of them projects it, maybe by another name. -/
def PassesOn (vars : VarTable) (items : List Item) (id : VarId) : Prop :=
  ∃ item ∈ items, ∃ projected, item.projected? = some projected ∧ vars.resolve projected = id

/-- Where a variable comes from that is in reach of a scope: the scope before passes it on, a clause
of the scope declares it, or it is a path of the scope.
-/
inductive Origin (vars : VarTable) (scope : Nat) (before : List Item) (own : List VarId)
    (id : VarId)
    : Prop where
  | inherited {var} (found : vars.get? id = some var) (earlier : var.scope < scope)
    (passed : PassesOn vars before id)
  | declared {var} (found : vars.get? id = some var) (here : var.scope = scope)
    (listed : id ∈ own)
  | path {var hops elements} (found : vars.get? id = some var) (here : var.scope = scope)
    (kind : var.definition = .path hops elements)

/-- The variable stands for one that is in reach of a scope. -/
def InReach (vars : VarTable) (scope : Nat) (before : List Item) (own : List VarId) (id : VarId)
    : Prop :=
  Origin vars scope before own (vars.resolve id)

/-- A clause declares nodes and relationships of its scope. Their conditions and ends, and its own
condition, refer to what is in reach behind the clause.
-/
structure ReadingClause.Scoped (vars : VarTable) (scope : Nat) (before : List Item)
    (own : List VarId) (clause : ReadingClause)
    : Prop where
  elements
    : ∀ id ∈ clause.ids,
        ∃ var, vars.get? id = some var ∧ var.scope = scope ∧ var.definition.isElement
  restrictions
    : ∀ id ∈ clause.ids,
        ∀ var,
          vars.get? id = some var
          → ∀ condition,
              var.definition.restriction? = some condition
              → condition.Over fun other =>
                  other = id ∨ InReach vars scope before (own ++ clause.ids) other
  ends
    : ∀ id ∈ clause.ids,
        ∀ rel,
          vars.relationship? id = some rel
          → InReach vars scope before (own ++ clause.ids) rel.left
            ∧ InReach vars scope before (own ++ clause.ids) rel.right
  relationships
    : ∀ id, id ∈ clause.relationships ↔ id ∈ clause.ids ∧ (vars.relationship? id).isSome
  condition
    : ∀ condition,
        clause.condition = some condition
        → condition.Over (InReach vars scope before (own ++ clause.ids))

/-- An item projects what is in reach. Only a `RETURN` has items without a name that are no
variables.
-/
def Item.Scoped (vars : VarTable) (scope : Nat) (before : List Item) (own : List VarId)
    (kind : ScopeKind)
    : Item → Prop
  | .named id =>
      ∃ var expr type,
        vars.get? id = some var
        ∧ var.scope = scope
        ∧ var.definition = .projected expr type
        ∧ expr.Over (InReach vars scope before own)
  | .unnamed expr column =>
      expr.Over (InReach vars scope before own)
      ∧ (kind = .withClause → ∃ id, expr = .var id)
      ∧ ∃ name, vars.definition? column = some (.temporary name)

/-- The variables that items give a name. -/
def namedIds (items : List Item) : List VarId :=
  items.filterMap fun
    | .named id => some id
    | .unnamed _ _ => none

/-- The variables that the clauses of a scope declare. -/
def clauseIds (clauses : List ReadingClause) : List VarId :=
  clauses.flatMap (·.ids)

/-- Each clause of a list is scoped behind the ones before it, and no variable is declared twice. -/
structure ClausesScoped (vars : VarTable) (scope : Nat) (before : List Item)
    (clauses : List ReadingClause)
    : Prop where
  each
    : ∀ {index : Nat} {clause : ReadingClause},
        clauses[index]? = some clause
        → clause.Scoped vars scope before (clauseIds (clauses.take index))
  distinct : (clauseIds clauses).Nodup

/-- All that the model of a scope says refers to what is in reach of the scope. -/
structure ScopeModel.Scoped (vars : VarTable) (scope : Nat) (before : List Item)
    (model : ScopeModel)
    : Prop where
  clauses : ClausesScoped vars scope before model.clauses
  filter
    : ∀ condition,
        model.filter = some condition → condition.Over (InReach vars scope before [])
  items
    : ∀ item ∈ model.items,
        item.Scoped vars scope before (clauseIds model.clauses) model.kind
  namedOnce : (namedIds model.items).Nodup
  orderBy
    : ∀ key ∈ model.orderBy,
        key.expr.Over fun id =>
          InReach vars scope before (clauseIds model.clauses) id ∨ .named id ∈ model.items
  skip : ∀ expr, model.skip = some expr → expr.Over fun _ => False
  limit : ∀ expr, model.limit = some expr → expr.Over fun _ => False

/-- The items of the scope before one. -/
def itemsBefore (models : List ScopeModel) : Nat → List Item
  | 0 => []
  | index + 1 => models[index]?.elim [] (·.items)

/-- Every model of a list is scoped behind the one before it. -/
def ModelsScoped (vars : VarTable) (models : List ScopeModel) : Prop :=
  ∀ {index : Nat} {model : ScopeModel},
    models[index]? = some model → model.Scoped vars index (itemsBefore models index)

theorem mem_namedIds {items : List Item} {id : VarId}
    : id ∈ namedIds items ↔ .named id ∈ items := by
  simp only [namedIds, List.mem_filterMap]
  constructor
  · rintro ⟨item, member, found⟩
    cases item with
    | named other => exact Option.some.inj found ▸ member
    | unnamed expr column => simp at found
  · intro member
    exact ⟨.named id, member, rfl⟩

/-- What a clause declares, or a clause before it, is declared by the clauses together. -/
theorem mem_clauseIds_of_take {clauses : List ReadingClause} {index : Nat} {clause : ReadingClause}
    (found : clauses[index]? = some clause) {id : VarId}
    (member : id ∈ clauseIds (clauses.take index) ++ clause.ids)
    : id ∈ clauseIds clauses := by
  rcases List.mem_append.mp member with before | here
  · obtain ⟨other, listed, member⟩ := List.mem_flatMap.mp before
    exact List.mem_flatMap.mpr ⟨other, List.mem_of_mem_take listed, member⟩
  · exact List.mem_flatMap.mpr ⟨clause, List.mem_of_getElem? found, here⟩

section Reach

variable {vars : VarTable} {scope : Nat} {before : List Item} {own more : List VarId} {id : VarId}

/-- More declared variables keep the others in reach. -/
theorem InReach.mono (reach : InReach vars scope before own id) (included : ∀ id ∈ own, id ∈ more)
    : InReach vars scope before more id := by
  cases reach with
  | inherited found earlier passed => exact .inherited found earlier passed
  | declared found here listed => exact .declared found here (included _ listed)
  | path found here kind => exact .path found here kind

/-- What is in reach stands for a declared variable of this scope or an earlier one. -/
theorem InReach.resolved (reach : InReach vars scope before own id)
    : ∃ var, vars.get? (vars.resolve id) = some var ∧ var.scope ≤ scope := by
  cases reach with
  | inherited found earlier _ => exact ⟨_, found, Nat.le_of_lt earlier⟩
  | declared found here _ => exact ⟨_, found, Nat.le_of_eq here⟩
  | path found here _ => exact ⟨_, found, Nat.le_of_eq here⟩

/-- What is in reach is declared. -/
theorem InReach.isSome (reach : InReach vars scope before own id) : (vars.get? id).isSome := by
  obtain ⟨var, found, -⟩ := reach.resolved
  exact VarTable.isSome_of_resolve (by simp [found])

variable {later : VarTable} {order orderLater : List VarId}

/-- Items go on to pass a declared variable on. -/
theorem PassesOn.grow (grows : vars.GrowsTo later) (ordered : vars.Ordered order)
    (orderedLater : later.Ordered orderLater) (declared : (vars.get? id).isSome)
    (passed : PassesOn vars before id)
    : PassesOn later before id := by
  obtain ⟨item, member, projected, found, rfl⟩ := passed
  refine ⟨item, member, projected, found, ?_⟩
  exact grows.resolve ordered orderedLater (VarTable.isSome_of_resolve declared)

/-- A growing table keeps in reach what was. -/
theorem InReach.grow (grows : vars.GrowsTo later) (ordered : vars.Ordered order)
    (orderedLater : later.Ordered orderLater) (reach : InReach vars scope before own id)
    : InReach later scope before own id := by
  have resolved := grows.resolve ordered orderedLater reach.isSome
  rw [InReach, resolved]
  cases reach with
  | inherited found earlier passed =>
      obtain ⟨var, found', sameScope, -⟩ := grows.kept found
      exact .inherited found' (sameScope ▸ earlier)
        (passed.grow grows ordered orderedLater (by simp [found]))
  | declared found here listed =>
      obtain ⟨var, found', sameScope, -⟩ := grows.kept found
      exact .declared found' (sameScope.trans here) listed
  | path found here kind =>
      obtain ⟨var, found', sameScope, outline, -⟩ := grows.kept found
      rw [kind] at outline
      cases changed : var.definition with
      | path hops elements => exact .path found' (sameScope.trans here) changed
      | _ => simp [changed, Definition.outline] at outline

/-- A clause stays scoped while the table grows. -/
theorem ReadingClause.Scoped.grow (grows : vars.GrowsTo later) (ordered : vars.Ordered order)
    (orderedLater : later.Ordered orderLater) {clause : ReadingClause}
    (inScope : clause.Scoped vars scope before own)
    : clause.Scoped later scope before own := by
  have reach {id : VarId} (reach : InReach vars scope before (own ++ clause.ids) id) :=
    reach.grow grows ordered orderedLater
  refine {
    elements := ?_
    restrictions := ?_
    ends := ?_
    relationships := ?_
    condition := fun condition found => (inScope.condition condition found).mono fun _ => reach
  }
  · intro id member
    obtain ⟨var, found, here, element⟩ := inScope.elements id member
    obtain ⟨other, found', sameScope, outline, -⟩ := grows.kept found
    refine ⟨other, found', sameScope.trans here, ?_⟩
    rw [← Definition.isElement_outline, outline, Definition.isElement_outline]
    exact element
  · intro id member other found' condition present
    obtain ⟨var, found, -⟩ := inScope.elements id member
    obtain ⟨_, found'', -, -, restriction⟩ := grows.kept found
    obtain rfl := Option.some.inj (found''.symm.trans found')
    rcases restriction with same | absent
    · exact (inScope.restrictions id member var found condition (same ▸ present)).mono
        fun other => Or.imp_right reach
    · simp [absent] at present
  · intro id member rel found'
    obtain ⟨var, found, -⟩ := inScope.elements id member
    obtain ⟨old, present⟩ : ∃ old, vars.relationship? id = some old := by
      have declared : (vars.get? id).isSome := by simp [found]
      have kind := grows.isSome_relationship? declared
      exact Option.isSome_iff_exists.mp (kind ▸ by simp [found'])
    obtain ⟨other, present', left, right, -⟩ := grows.relationship? present
    obtain rfl := Option.some.inj (present'.symm.trans found')
    obtain ⟨reachLeft, reachRight⟩ := inScope.ends id member old present
    exact ⟨left ▸ reach reachLeft, right ▸ reach reachRight⟩
  · intro id
    rw [inScope.relationships]
    refine and_congr_right fun member => ?_
    obtain ⟨var, found, -⟩ := inScope.elements id member
    rw [grows.isSome_relationship? (by simp [found])]

/-- An item stays scoped while the table grows. -/
theorem Item.Scoped.grow (grows : vars.GrowsTo later) (ordered : vars.Ordered order)
    (orderedLater : later.Ordered orderLater) {kind : ScopeKind} {item : Item}
    (inScope : item.Scoped vars scope before own kind)
    : item.Scoped later scope before own kind := by
  have reach {id : VarId} (reach : InReach vars scope before own id) :=
    reach.grow grows ordered orderedLater
  cases item with
  | named id =>
      obtain ⟨var, expr, type, found, here, definition, isOver⟩ := inScope
      obtain ⟨other, found', sameScope, outline, -⟩ := grows.kept found
      rw [definition] at outline
      cases changed : other.definition with
      | projected expr' type' =>
          simp only [changed, Definition.outline, Definition.projected.injEq, and_true] at outline
          exact ⟨other, expr', type', found', sameScope.trans here, changed,
            outline ▸ isOver.mono fun _ => reach⟩
      | _ => simp [changed, Definition.outline] at outline
  | unnamed expr column =>
      obtain ⟨isOver, isVar, name, temporary⟩ := inScope
      refine ⟨isOver.mono fun _ => reach, isVar, name, ?_⟩
      obtain ⟨var, found, definition⟩ := VarTable.definition?_eq_some.mp temporary
      obtain ⟨other, found', -, outline, -⟩ := grows.kept found
      rw [definition] at outline
      cases changed : other.definition with
      | temporary name' =>
          simp only [changed, Definition.outline, Definition.temporary.injEq] at outline
          exact VarTable.definition?_eq_some.mpr ⟨other, found', changed.trans (by rw [outline])⟩
      | _ => simp [changed, Definition.outline] at outline

/-- Clauses stay scoped while the table grows. -/
theorem ClausesScoped.grow (grows : vars.GrowsTo later) (ordered : vars.Ordered order)
    (orderedLater : later.Ordered orderLater) {clauses : List ReadingClause}
    (inScope : ClausesScoped vars scope before clauses)
    : ClausesScoped later scope before clauses :=
  ⟨fun found => (inScope.each found).grow grows ordered orderedLater, inScope.distinct⟩

/-- A model stays scoped while the table grows. -/
theorem ScopeModel.Scoped.grow (grows : vars.GrowsTo later) (ordered : vars.Ordered order)
    (orderedLater : later.Ordered orderLater) {model : ScopeModel}
    (inScope : model.Scoped vars scope before)
    : model.Scoped later scope before := by
  have reach {own : List VarId} {id : VarId} (reach : InReach vars scope before own id) :=
    reach.grow grows ordered orderedLater
  exact {
    clauses := inScope.clauses.grow grows ordered orderedLater
    filter := fun condition found => (inScope.filter condition found).mono fun _ => reach
    items := fun item member => (inScope.items item member).grow grows ordered orderedLater
    namedOnce := inScope.namedOnce
    orderBy := fun key member => (inScope.orderBy key member).mono fun _ => Or.imp_left reach
    skip := inScope.skip
    limit := inScope.limit
  }

/-- All models stay scoped while the table grows. -/
theorem ModelsScoped.grow (grows : vars.GrowsTo later) (ordered : vars.Ordered order)
    (orderedLater : later.Ordered orderLater) {models : List ScopeModel}
    (inScope : ModelsScoped vars models)
    : ModelsScoped later models :=
  fun found => (inScope found).grow grows ordered orderedLater

end Reach

end CypherSql.Plan
