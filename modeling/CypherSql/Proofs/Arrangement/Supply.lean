import CypherSql.Proofs.Arrangement.Placement
import CypherSql.Proofs.Passes.Tables

/-! What the items of a scope supply. A subquery supplies variables of earlier scopes and a table
one that a clause of the scope declares, so that no variable is supplied twice. What is in reach of
a clause is supplied by the subquery or by items of clauses up to this one.
-/

namespace CypherSql.Plan

namespace VarTable.Ordered

variable {vars : VarTable} {order : List VarId} {id : VarId} {var : Variable}

/-- What a definition depends on is declared in no later scope. -/
theorem dependency_scope (ordered : vars.Ordered order)
    (found : vars.get? id = some var) {dep : VarId}
    (depends : dep ∈ var.definition.dependencies id)
    : ∃ other, vars.get? dep = some other ∧ other.scope ≤ var.scope := by
  have declared := (ordered.declared dep).mp (ordered.earlier found dep depends).1
  obtain ⟨other, present⟩ := Option.isSome_iff_exists.mp declared
  exact ⟨other, present, ordered.noLater found depends present⟩

/-- A variable stands for one of no later scope, by induction over the chain of names. -/
theorem resolve_scope (ordered : vars.Ordered order) (found : vars.get? id = some var)
    : ∃ other, vars.get? (vars.resolve id) = some other ∧ other.scope ≤ var.scope := by
  induction id using ordered.chain_induction generalizing var with
  | last id last => exact ⟨var, by rwa [resolve_of_target_none last], Nat.le_refl _⟩
  | next id target next ih =>
      have named : var.definition.target? = some target := by
        simpa [VarTable.target?, definition?_of_get? found] using next
      obtain ⟨middle, present, notLater⟩ :=
        ordered.dependency_scope found (Definition.target?_mem_dependencies _ named)
      obtain ⟨other, resolved, notLater'⟩ := ih present
      exact ⟨other, by rwa [ordered.resolve_of_target next], Nat.le_trans notLater' notLater⟩

/-- The elements of a path are declared in no later scope than the path. -/
theorem withElements_scope (ordered : vars.Ordered order) (found : vars.get? id = some var)
    {element : VarId} (member : element ∈ withElements vars id)
    : ∃ other, vars.get? element = some other ∧ other.scope ≤ var.scope := by
  unfold withElements at member
  rw [definition?_of_get? found] at member
  split at member
  · rename_i hops elements kind
    rcases List.mem_cons.mp member with rfl | inside
    · exact ⟨var, found, Nat.le_refl _⟩
    · refine ordered.dependency_scope found ?_
      rw [Option.some.inj kind]
      exact NameSet.mem_ofList.mpr inside
  · obtain rfl := List.mem_singleton.mp member
    exact ⟨var, found, Nat.le_refl _⟩

end VarTable.Ordered

namespace QueryModel

variable {query : QueryModel} {catalog : Catalog} {vars : VarTable} {index : Nat}
  {model : ScopeModel} {tabled : Bool} {id : VarId} {source item : FromItem}
  {items : List FromItem}

/-- A subquery supplies variables of its own scope and earlier ones. -/
theorem scope_of_mem_suppliedOf {before : Nat} (found : query.models[before]? = some model)
    (member : id ∈ suppliedOf query.vars model.items)
    : ∃ var, query.vars.get? id = some var ∧ var.scope ≤ before := by
  obtain ⟨order, ordered⟩ := query.collected.ordered
  obtain ⟨passed, listed, element⟩ := List.mem_flatMap.mp
    ((mem_addNew.mp member).resolve_left List.not_mem_nil)
  obtain ⟨item, inItems, projected, projects, rfl⟩ := mem_passedOn.mp listed
  have holds := (query.collected.inScope found).items item inItems
  obtain ⟨other, present, notLater⟩ : ∃ other,
      query.vars.get? (query.vars.resolve projected) = some other ∧ other.scope ≤ before := by
    cases item with
    | named name =>
        obtain rfl := Option.some.inj projects
        obtain ⟨var, _, _, present, here, -⟩ := holds
        obtain ⟨other, resolved, notLater⟩ := ordered.resolve_scope present
        exact ⟨other, resolved, here ▸ notLater⟩
    | unnamed expr column =>
        cases expr with
        | var name =>
            obtain rfl := Option.some.inj projects
            exact (Expr.over_var.mp holds.1).resolved
        | _ => simp [Item.projected?] at projects
  obtain ⟨var, found', notLater'⟩ := ordered.withElements_scope present element
  exact ⟨var, found', Nat.le_trans notLater' notLater⟩

/-- The subquery before a scope supplies variables of earlier scopes. -/
theorem scope_of_mem_itemsBefore (found : query.models[index]? = some model)
    (member : id ∈ suppliedOf query.vars (itemsBefore query.models index))
    : ∃ var, query.vars.get? id = some var ∧ var.scope < index := by
  cases index with
  | zero => simp [itemsBefore, suppliedOf, passedOn, addNew] at member
  | succ before =>
      have within : before < query.models.length := by
        have within := (List.getElem?_eq_some_iff.mp found).1
        omega
      have found' := List.getElem?_eq_getElem within
      rw [itemsBefore, found', Option.elim_some] at member
      obtain ⟨var, present, notLater⟩ := scope_of_mem_suppliedOf found' member
      exact ⟨var, present, Nat.lt_succ_of_le notLater⟩

/-- What the clauses of a scope declare are nodes and relationships of the scope. -/
theorem element_of_mem_clauseIds (found : query.models[index]? = some model)
    (member : id ∈ clauseIds model.clauses)
    : ∃ var, query.vars.get? id = some var ∧ var.scope = index ∧ var.definition.isElement := by
  obtain ⟨clause, listed, declared⟩ := List.mem_flatMap.mp member
  obtain ⟨position, at'⟩ := List.mem_iff_getElem?.mp listed
  exact ((query.collected.inScope found).clauses.each at').elements id declared

/-- The tables of a scope supply what its clauses declare, in order. -/
theorem flatMap_tableItems (model : ScopeModel) (index : Nat)
    : (tableItems (model.scope index)).flatMap (·.ids) = clauseIds model.clauses := by
  have single (clause : ReadingClause) (position : Nat)
      : (clause.ids.map fun id => FromItem.ofTable id position clause.optional).flatMap (·.ids)
        = clause.ids := by
    simp [List.flatMap_map, FromItem.ofTable]
  have clauses : (model.scope index).clauses = model.clauses := rfl
  simp only [tableItems, clauses, List.flatMap_assoc, single, clauseIds]
  rw [← List.zipIdx_map_fst 0 model.clauses, List.flatMap_map]
  simp

/-- No variable is supplied twice by the sources of a scope. -/
theorem nodup_sources (found : query.models[index]? = some model)
    : ((query.sources index model).flatMap (·.ids)).Nodup := by
  have inScope := query.collected.inScope found
  rw [sources, List.flatMap_append, flatMap_tableItems]
  refine List.nodup_append.mpr ⟨?_, inScope.clauses.distinct, ?_⟩
  · cases index with
    | zero => simp [innerItems]
    | succ before =>
        simp only [innerItems, List.flatMap_cons, List.flatMap_nil, List.append_nil]
        exact nodup_addNew .nil
  · rintro id inner _ declared rfl
    have inner : id ∈ suppliedOf query.vars (itemsBefore query.models index) := by
      cases index with
      | zero => simp [innerItems] at inner
      | succ before => simpa [innerItems, FromItem.ofSubquery] using inner
    obtain ⟨var, present, earlier⟩ := scope_of_mem_itemsBefore found inner
    obtain ⟨other, present', here, -⟩ := element_of_mem_clauseIds found declared
    obtain rfl := Option.some.inj (present.symm.trans present')
    exact Nat.ne_of_lt earlier here

/-- The items of a scope on their way to their places, one for each source. -/
def Items (query : QueryModel) (index : Nat) (model : ScopeModel) (items : List FromItem) : Prop :=
  List.Forall₂ (query.Placeable index model true) (query.sources index model) items

/-- An item is one of a source. -/
theorem Items.placeable (all : query.Items index model items) (member : item ∈ items)
    : query.Placeable index model true item.bare item := by
  obtain ⟨position, at'⟩ := List.mem_iff_getElem?.mp member
  obtain ⟨source, -, placeable⟩ := forall₂_getElem?_right all at'
  exact placeable.same ▸ placeable

/-- Every source has an item. -/
theorem Items.exists_of_mem (all : query.Items index model items)
    (member : source ∈ query.sources index model)
    : ∃ item ∈ items, item.bare = source := by
  obtain ⟨position, at'⟩ := List.mem_iff_getElem?.mp member
  obtain ⟨item, found, placeable⟩ := forall₂_getElem?_left all at'
  exact ⟨item, List.mem_of_getElem? found, placeable.same⟩

theorem Items.map_bare (all : query.Items index model items)
    : items.map FromItem.bare = query.sources index model := by
  rw [map_eq_of_forall₂ all (f := id) fun _ _ placeable => placeable.same, List.map_id]

/-- What the scope before passes on is supplied by an item that is not optional. -/
theorem Items.inherited (all : query.Items index model items)
    (passed : PassesOn query.vars (itemsBefore query.models index) id)
    : ∃ item ∈ items, id ∈ item.ids ∧ item.optional = false := by
  cases index with
  | zero =>
      obtain ⟨item, member, -⟩ := passed
      simp [itemsBefore] at member
  | succ before =>
      obtain ⟨item, member, same⟩ :=
        all.exists_of_mem (List.mem_append_left _ (List.mem_singleton.mpr rfl))
      refine ⟨item, member, ?_, congrArg FromItem.optional same⟩
      have ids : item.ids = suppliedOf query.vars (itemsBefore query.models (before + 1)) :=
        congrArg FromItem.ids same
      rw [ids]
      exact passed.mem_suppliedOf

/-- What a clause declares is supplied by the item of its table. -/
theorem Items.declared (all : query.Items index model items) {position : Nat}
    {clause : ReadingClause} (at' : model.clauses[position]? = some clause)
    (declared : id ∈ clause.ids)
    : ∃ item ∈ items,
        item.tableVar? = some id
        ∧ id ∈ item.ids
        ∧ item.clauseNumber = position
        ∧ item.optional = clause.optional := by
  have isTable : FromItem.ofTable id position clause.optional ∈ query.sources index model := by
    refine List.mem_append_right _ (List.mem_flatMap.mpr ⟨(clause, position), ?_, ?_⟩)
    · exact List.mem_zipIdx_iff_getElem?.mpr at'
    · exact List.mem_map.mpr ⟨id, declared, rfl⟩
  obtain ⟨item, member, same⟩ := all.exists_of_mem isTable
  have source : item.source = none := congrArg FromItem.source same
  have ids : item.ids = [id] := congrArg FromItem.ids same
  have number : item.clause = some position := congrArg FromItem.clause same
  refine ⟨item, member, ?_, ?_, ?_, congrArg FromItem.optional same⟩
  · simp [FromItem.tableVar?, source, ids]
  · simp [ids]
  · simp [FromItem.clauseNumber, number]

/-- An item is that of the subquery before the scope, or that of a variable of a clause. -/
theorem Placeable.subquery_or_table (placeable : query.Placeable index model tabled source item)
    : (∃ before,
        index = before + 1
        ∧ item.source = some before
        ∧ item.ids = suppliedOf query.vars (itemsBefore query.models index)
        ∧ item.optional = false
        ∧ item.table = none)
      ∨ ∃ position clause id,
          model.clauses[position]? = some clause
          ∧ id ∈ clause.ids
          ∧ item.source = none
          ∧ item.ids = [id]
          ∧ item.clause = some position
          ∧ item.optional = clause.optional := by
  have same := placeable.same
  have subquery := placeable.subquery
  obtain ⟨own, table, ids, clause, isOptional, pending⟩ := item
  cases placeable.isSource with
  | subquery behind =>
      simp only [FromItem.bare, FromItem.ofSubquery, FromItem.mk.injEq] at same
      obtain ⟨rfl, -, rfl, rfl, rfl, -⟩ := same
      exact .inl ⟨_, behind, rfl, rfl, rfl, subquery rfl⟩
  | table at' declared =>
      simp only [FromItem.bare, FromItem.ofTable, FromItem.mk.injEq] at same
      obtain ⟨rfl, -, rfl, rfl, rfl, -⟩ := same
      exact .inr ⟨_, _, _, at', declared, rfl, rfl, rfl, rfl⟩

/-- An item has no fault, if it has a table where it needs one. -/
theorem Placeable.fault?_eq_none (placeable : query.Placeable index model tabled source item)
    (found : query.models[index]? = some model) (forwarding : query.Forwarding) {needsTable : Bool}
    (hasTable : needsTable = true → ∀ id, item.tableVar? = some id → item.table.isSome)
    : item.fault? needsTable = none := by
  rcases placeable.subquery_or_table with
    ⟨before, rfl, source, ids, -, table⟩ | ⟨position, clause, id, -, -, source, ids, -⟩
  · have within := (List.getElem?_eq_some_iff.mp found).1
    have found' := List.getElem?_eq_getElem (Nat.lt_of_succ_lt within)
    have kind := query.collected.kinds.withClause found' within
    have some' := suppliedOf_ne_nil found' kind forwarding
    rw [itemsBefore, found', Option.elim_some] at ids
    simp [FromItem.fault?, source, table, ids, some']
  · cases needsTable with
    | false => simp [FromItem.fault?, source, ids]
    | true =>
        have isSome := hasTable rfl id (by simp [FromItem.tableVar?, source, ids])
        simp [FromItem.fault?, source, ids, Option.isSome_iff_ne_none.mp isSome]

/-- What an item supplies is of an earlier scope, or declared by a clause. -/
theorem Items.supplies (all : query.Items index model items)
    (found : query.models[index]? = some model) (member : item ∈ items) (supplies : id ∈ item.ids)
    : (∃ var, query.vars.get? id = some var ∧ var.scope < index)
      ∨ id ∈ clauseIds model.clauses ∧ item.ids = [id] := by
  rcases (all.placeable member).subquery_or_table with
    ⟨_, -, -, ids, -⟩ | ⟨position, clause, other, at', declared, -, ids, -⟩
  · exact .inl (scope_of_mem_itemsBefore found (ids ▸ supplies))
  · rw [ids] at supplies ⊢
    obtain rfl := List.mem_singleton.mp supplies
    exact .inr ⟨List.mem_flatMap.mpr ⟨clause, List.mem_of_getElem? at', declared⟩, rfl⟩

/-- The pending conditions of items refer to no later optional clauses. -/
theorem Items.pends (all : query.Items index model items)
    (refined : query.Refined catalog true vars)
    (found : query.models[index]? = some model) (member : item ∈ items)
    : item.Pends vars (fun id => ∃ other ∈ items, id ∈ other.ids) items := by
  have placeable := all.placeable member
  refine ⟨placeable.required, fun condition listed part inside => ?_,
    fun condition listed id refers isSupplied => ?_⟩
  · exact ((placeable.pending condition listed).conjuncts part inside).not_readsColumn
  · have reach := (placeable.pending condition listed).of_mem_references refers
    rw [refined.resolve] at isSupplied ⊢
    cases reach with
    | inherited _ _ passed =>
        obtain ⟨other, listed, supplies, required⟩ := all.inherited passed
        exact ⟨other, listed, supplies, fun isOptional => by simp [required] at isOptional⟩
    | declared _ _ own =>
        obtain ⟨clause, taken, declared⟩ := List.mem_flatMap.mp own
        obtain ⟨position, at'⟩ := List.mem_iff_getElem?.mp taken
        rw [List.getElem?_take] at at'
        split at at'
        · rename_i before
          obtain ⟨other, listed, -, supplies, number, -⟩ := all.declared at' declared
          exact ⟨other, listed, supplies, fun _ => by omega⟩
        · simp at at'
    | path present here kind =>
        -- A path of the scope is no item's variable, so that nothing is demanded.
        obtain ⟨other, listed, supplies⟩ := isSupplied
        rcases all.supplies found listed supplies with ⟨var, present', earlier⟩ | ⟨declared, -⟩
        · obtain rfl := Option.some.inj (present.symm.trans present')
          exact absurd here (Nat.ne_of_lt earlier)
        · obtain ⟨var, present', -, element⟩ := element_of_mem_clauseIds found declared
          obtain rfl := Option.some.inj (present.symm.trans present')
          simp [kind, Definition.isElement] at element

/-- The edge is that of a relationship that the clauses of a scope declare: between the nodes its
ends stand for, in the table for its types, its arrow and the labels of its ends.
-/
structure IsEdge (query : QueryModel) (catalog : Catalog) (model : ScopeModel)
    (rel : RelationshipVar)
    (edge : Edge)
    : Prop where
  declared : edge.relationship ∈ clauseIds model.clauses
  isRelationship : query.vars.relationship? edge.relationship = some rel
  left : query.vars.resolve rel.left = edge.left
  right : query.vars.resolve rel.right = edge.right
  binding
    : catalog.relationship rel.types (endpointLabels query.vars rel.left)
        (endpointLabels query.vars rel.right) rel.direction = .ok edge.binding

/-- A bound relationship was looked up with the labels that were collected for its ends. -/
theorem Refined.lookup_eq (refined : query.Refined catalog true vars) {id : VarId}
    {rel : RelationshipVar} {binding : RelationshipBinding}
    (isRelationship : vars.relationship? id = some rel) (isBound : rel.binding = some binding)
    : catalog.relationship rel.types (endpointLabels query.vars rel.left)
        (endpointLabels query.vars rel.right) rel.direction = .ok binding := by
  obtain ⟨var, present, kind⟩ :=
    VarTable.definition?_eq_some.mp (VarTable.relationship?_eq_some.mp isRelationship)
  have agrees := refined.agrees _ var present
  rw [kind] at agrees
  exact agrees.2 binding isBound

/-- A bound relationship of a clause has its edge. -/
theorem Refined.isEdge (refined : query.Refined catalog true vars)
    (found : query.models[index]? = some model) {edge : Edge} {rel : RelationshipVar}
    (inClauses : edge.relationship ∈ clauseIds model.clauses)
    (isRelationship : vars.relationship? edge.relationship = some rel)
    (isBound : rel.binding = some edge.binding) (left : query.vars.resolve rel.left = edge.left)
    (right : query.vars.resolve rel.right = edge.right)
    : ∃ old, query.IsEdge catalog model old edge := by
  obtain ⟨var, present, -⟩ := element_of_mem_clauseIds found inClauses
  obtain ⟨old, wasRelationship⟩ : ∃ old, query.vars.relationship? edge.relationship = some old := by
    have declared : (query.vars.get? edge.relationship).isSome := by simp [present]
    have kind := refined.grows.isSome_relationship? declared
    exact Option.isSome_iff_exists.mp (kind ▸ by simp [isRelationship])
  obtain ⟨other, same, sameLeft, sameRight, sameDirection, sameTypes⟩ :=
    refined.grows.relationship? wasRelationship
  obtain rfl := Option.some.inj (isRelationship.symm.trans same)
  have lookup := refined.lookup_eq isRelationship isBound
  rw [sameTypes, sameLeft, sameRight, sameDirection] at lookup
  exact ⟨old, inClauses, wasRelationship, sameLeft ▸ left, sameRight ▸ right, lookup⟩

/-- The items of relationships have the edges of the relationships that the clauses declare. -/
theorem Items.exists_isOf_iff (all : query.Items index model items)
    (refined : query.Refined catalog true vars) (found : query.models[index]? = some model)
    (bound
      : ∀ item ∈ items,
          ∀ id rel,
            item.tableVar? = some id → vars.relationship? id = some rel → rel.binding.isSome)
    (edge : Edge)
    : (∃ item ∈ items, edge.IsOf vars item) ↔ ∃ rel, query.IsEdge catalog model rel edge := by
  constructor
  · rintro ⟨item, member, rel, isTable, isRelationship, isBound, left, right⟩
    obtain ⟨position, clause, at', declared, -⟩ := (all.placeable member).declared isTable
    have inClauses : edge.relationship ∈ clauseIds model.clauses :=
      List.mem_flatMap.mpr ⟨clause, List.mem_of_getElem? at', declared⟩
    rw [refined.resolve] at left right
    exact refined.isEdge found inClauses isRelationship isBound left right
  · rintro ⟨rel, inClauses, isRelationship, left, right, lookup⟩
    obtain ⟨clause, listed, declared⟩ := List.mem_flatMap.mp inClauses
    obtain ⟨position, at'⟩ := List.mem_iff_getElem?.mp listed
    obtain ⟨item, member, isTable, -⟩ := all.declared at' declared
    obtain ⟨other, same, sameLeft, sameRight, sameDirection, sameTypes⟩ :=
      refined.grows.relationship? isRelationship
    obtain ⟨binding, isBound⟩ :=
      Option.isSome_iff_exists.mp (bound item member _ other isTable same)
    have lookup' := refined.lookup_eq same isBound
    rw [sameTypes, sameLeft, sameRight, sameDirection, lookup] at lookup'
    refine ⟨item, member, other, isTable, same, ?_, ?_, ?_⟩
    · rw [isBound, Except.ok.inj lookup']
    · rw [refined.resolve, sameLeft, left]
    · rw [refined.resolve, sameRight, right]

namespace IsEdge

variable {rel : RelationshipVar} {edge : Edge}

/-- The ends of an edge are nodes. -/
theorem nodes (isEdge : query.IsEdge catalog model rel edge)
    : (∃ node, query.vars.node? edge.left = some node)
      ∧ ∃ node, query.vars.node? edge.right = some node := by
  obtain ⟨var, present, kind⟩ :=
    VarTable.definition?_eq_some.mp (VarTable.relationship?_eq_some.mp isEdge.isRelationship)
  have linked := query.collected.linked present
  rw [kind] at linked
  rw [← isEdge.left, ← isEdge.right]
  exact linked

/-- The variables of an edge are no other names. -/
theorem resolved (isEdge : query.IsEdge catalog model rel edge)
    (refined : query.Refined catalog true vars)
    : edge.Resolved vars := by
  obtain ⟨order, ordered⟩ := query.collected.ordered
  refine ⟨?_, ?_, ?_⟩
  · rw [refined.resolve]
    refine VarTable.Ordered.resolve_of_target_none ?_
    simp [VarTable.target?, VarTable.relationship?_eq_some.mp isEdge.isRelationship,
      Definition.target?]
  · rw [refined.resolve, ← isEdge.left, ordered.resolve_resolve]
  · rw [refined.resolve, ← isEdge.right, ordered.resolve_resolve]

/-- No item supplies a relationship together with one of its nodes. -/
theorem apart (isEdge : query.IsEdge catalog model rel edge) (all : query.Items index model items)
    (found : query.models[index]? = some model) (member : item ∈ items)
    : edge.Apart item := by
  obtain ⟨⟨left, leftNode⟩, ⟨right, rightNode⟩⟩ := isEdge.nodes
  intro supplies
  rcases all.supplies found member supplies with ⟨var, present, earlier⟩ | ⟨-, single⟩
  · obtain ⟨other, present', here, -⟩ := element_of_mem_clauseIds found isEdge.declared
    obtain rfl := Option.some.inj (present.symm.trans present')
    exact absurd here (Nat.ne_of_lt earlier)
  · have different {node : VarId} {definition : NodeVar}
        (isNode : query.vars.node? node = some definition)
        : node ∉ item.ids := by
      rw [single, List.mem_singleton]
      rintro rfl
      have kind := VarTable.relationship?_eq_some.mp isEdge.isRelationship
      simp [VarTable.node?_eq_some.mp isNode] at kind
    exact ⟨different leftNode, different rightNode⟩

/-- All variables of an edge are supplied. -/
theorem supplied (isEdge : query.IsEdge catalog model rel edge)
    (all : query.Items index model items) (found : query.models[index]? = some model)
    : (∃ item ∈ items, edge.relationship ∈ item.ids)
      ∧ (∃ item ∈ items, edge.left ∈ item.ids)
      ∧ ∃ item ∈ items, edge.right ∈ item.ids := by
  have ofClauses {id : VarId} (member : id ∈ clauseIds model.clauses)
      : ∃ item ∈ items, id ∈ item.ids := by
    obtain ⟨clause, listed, declared⟩ := List.mem_flatMap.mp member
    obtain ⟨position, at'⟩ := List.mem_iff_getElem?.mp listed
    obtain ⟨item, member, -, supplies, -⟩ := all.declared at' declared
    exact ⟨item, member, supplies⟩
  obtain ⟨clause, listed, declared⟩ := List.mem_flatMap.mp isEdge.declared
  obtain ⟨position, at'⟩ := List.mem_iff_getElem?.mp listed
  have ofReach {id : VarId} {node : NodeVar}
      (reach : InReach query.vars index (itemsBefore query.models index)
        (clauseIds (model.clauses.take position) ++ clause.ids) id)
      (isNode : query.vars.node? (query.vars.resolve id) = some node)
      : ∃ item ∈ items, query.vars.resolve id ∈ item.ids := by
    cases reach with
    | inherited _ _ passed =>
        obtain ⟨item, member, supplies, -⟩ := all.inherited passed
        exact ⟨item, member, supplies⟩
    | declared _ _ own => exact ofClauses (mem_clauseIds_of_take at' own)
    | path present here kind =>
        have definition := VarTable.node?_eq_some.mp isNode
        simp [VarTable.definition?_of_get? present, kind] at definition
  obtain ⟨left, right⟩ :=
    ((query.collected.inScope found).clauses.each at').ends _ declared rel isEdge.isRelationship
  obtain ⟨⟨_, leftNode⟩, ⟨_, rightNode⟩⟩ := isEdge.nodes
  rw [← isEdge.left] at leftNode ⊢
  rw [← isEdge.right] at rightNode ⊢
  exact ⟨ofClauses isEdge.declared, ofReach left leftNode, ofReach right rightNode⟩

end IsEdge

end QueryModel

end CypherSql.Plan
