import CypherSql.Proofs.Arrangement.Supply

/-! The joins of every scope are arranged safely. Every item gets its table on the way, and the
select holds the sources of the scope, each once, with conditions that say what its relationships
demand.
-/

namespace CypherSql.Plan

/-- An item that is no subquery has its table, and its variable is bound to it. -/
def VarTable.Housed (vars : VarTable) (item : FromItem) : Prop :=
  ∀ id, item.tableVar? = some id → item.table.isSome ∧ vars.Bound id

theorem VarTable.Housed.keep {vars later : VarTable} {item : FromItem} (housed : vars.Housed item)
    (keeps : vars.Keeps later)
    : later.Housed item :=
  fun id isTable => ⟨(housed id isTable).1, keeps.bound id (housed id isTable).2⟩

/-- Relationships in tables are bound. -/
theorem VarTable.Housed.binding {vars : VarTable} {item : FromItem} (housed : vars.Housed item)
    (id : VarId) (rel : RelationshipVar) (isTable : item.tableVar? = some id)
    (isRelationship : vars.relationship? id = some rel)
    : rel.binding.isSome :=
  (housed id isTable).2.relationship isRelationship

namespace QueryModel

variable {query : QueryModel} {catalog : Catalog} {vars : VarTable} {index : Nat}
  {model : ScopeModel} {source item : FromItem} {items : List FromItem}

/-- An item is narrowed safely: it has its table then. -/
theorem Refined.narrowItem (refined : query.Refined catalog true vars)
    (found : query.models[index]? = some model)
    (placeable : query.Placeable index model true source item) (tabled : vars.Tabled item)
    (relationships : List VarId)
    : Safely (fun result =>
          query.Refined catalog true result.2
          ∧ vars.Keeps result.2
          ∧ query.Placeable index model true source result.1
          ∧ result.2.Housed result.1)
        (narrowItem catalog relationships item vars) := by
  unfold Plan.narrowItem
  split
  · rename_i id untabled isTable
    obtain ⟨⟨name, _, scope, definition⟩, present, element⟩ :=
      refined.element found placeable isTable
    cases definition with
    | node pattern =>
        simp only [present]
        split
        · rename_i binding _
          obtain ⟨keeps, bound⟩ := VarTable.Keeps.redefine present
            (.node { pattern with labels := _, binding := some binding }) rfl rfl rfl
          have unread := refined.agrees id _ present
          refine ⟨refined.redefine present rfl rfl unread, keeps,
            placeable.withTable isTable _, fun other isTable' => ⟨rfl, ?_⟩⟩
          obtain rfl := Option.some.inj (isTable.symm.trans isTable')
          exact bound
        · simp [Cause.category]
    | relationship rel =>
        have hasTable := tabled.relationship id isTable
          (by simp [VarTable.relationship?, VarTable.definition?_of_get? present])
        simp [untabled] at hasTable
    | _ => simp [Definition.isElement] at element
  · rename_i notBoth
    refine ⟨refined, VarTable.Keeps.threads.refl vars, placeable, fun id isTable => ?_⟩
    have hasTable : item.table.isSome := by
      cases table : item.table with
      | none => exact (notBoth id table isTable).elim
      | some table => rfl
    exact ⟨hasTable, tabled.bound id isTable hasTable⟩

/-- The items of a scope are narrowed safely. -/
theorem Refined.narrowItems (refined : query.Refined catalog true vars)
    (found : query.models[index]? = some model) (all : query.Items index model items)
    (tabled : ∀ item ∈ items, vars.Tabled item) (relationships : List VarId)
    : Safely (fun result =>
          query.Refined catalog true result.2
          ∧ vars.Keeps result.2
          ∧ query.Items index model result.1
          ∧ ∀ item ∈ result.1, result.2.Housed item)
        (eachItem (Plan.narrowItem catalog relationships) items vars) := by
  have narrowed := eachItem_safely items
    (fun later => query.Refined catalog true later ∧ vars.Keeps later)
    (fun old later new => ∀ source,
      query.Placeable index model true source old
      → query.Placeable index model true source new ∧ later.Housed new)
    VarTable.Keeps.threads (f := Plan.narrowItem catalog relationships)
    (fun old _ _ new keeps related source placeable =>
      ⟨(related source placeable).1, (related source placeable).2.keep keeps⟩)
    ?_ ⟨refined, VarTable.Keeps.threads.refl vars⟩
  · refine narrowed.mono ?_
    rintro ⟨changed, later⟩ ⟨⟨refined, -⟩, keeps, related⟩
    have both := forall₂_comp all related fun source old new placeable related =>
      related source placeable
    refine ⟨refined, keeps, both.imp fun _ _ holds => holds.1, fun item member => ?_⟩
    obtain ⟨position, at'⟩ := List.mem_iff_getElem?.mp member
    obtain ⟨_, -, holds⟩ := forall₂_getElem?_right both at'
    exact holds.2
  · rintro item member later ⟨refined, keeps⟩
    refine (refined.narrowItem found (all.placeable member) ((tabled item member).keep keeps)
      relationships).mono ?_
    rintro ⟨changed, last⟩ ⟨refined, keeps', placeable, housed⟩
    refine ⟨⟨refined, VarTable.Keeps.threads.trans _ _ _ keeps keeps'⟩, keeps', ?_⟩
    intro source placeable'
    rw [← placeable'.same]
    exact ⟨placeable, housed⟩

/-- A scope whose joins are arranged. The select has the sources of the scope, each once, with their
tables and without pending conditions; a subquery comes first, optional items are in outer joins,
and these come last in the order of their clauses. Joins refer to nothing that comes after them, and
demand what the relationships of the scope demand, all of which have their tables. They are laid out
by an arrangement of the items and relationships of the scope.
-/
structure Joined (query : QueryModel) (catalog : Catalog) (model : ScopeModel) (scope : Scope)
    : Prop where
  frame : scope.frame = (model.scope scope.index).frame
  perm : (scope.select.items.map FromItem.bare).Perm (query.sources scope.index model)
  sound : ∀ item ∈ scope.select.items, item.pending = [] ∧ item.fault? true = none
  first : ∀ item ∈ scope.select.items, item.source.isSome → scope.select.fromItems.head? = some item
  required : ∀ item ∈ scope.select.fromItems, item.optional = false
  outer : ∀ join ∈ scope.select.joins, join.outer = join.item.optional
  sorted : (scope.select.joins.map (·.item)).Pairwise FromItem.MayPrecede
  backed
    : ∀ position join,
        scope.select.joins[position]? = some join
        → ∀ id ∈ join.condition.references,
            (∃ item ∈ scope.select.items, query.vars.resolve id ∈ item.ids)
            → ∃ item ∈ scope.select.fromItems
                  ++ (scope.select.joins.take (position + 1)).map (·.item),
                query.vars.resolve id ∈ item.ids
  bound
    : ∀ id ∈ clauseIds model.clauses,
        ∀ rel,
          query.vars.relationship? id = some rel
          → ∃ edge, edge.relationship = id ∧ query.IsEdge catalog model rel edge
  edges
    : ∀ truth,
        EdgesHold truth scope.select.joins
        ↔ ∀ rel edge, query.IsEdge catalog model rel edge → edge.Demands truth
  arrangement
    : ∃ vars items edges order layout,
        query.Items scope.index model items
        ∧ Arranged vars (fun id => ∃ item ∈ items, id ∈ item.ids) items edges order layout
        ∧ scope.select.joins = layout.joins
        ∧ ∀ edge, edge ∈ edges ↔ ∃ rel, query.IsEdge catalog model rel edge

theorem source_of_mem_tableItems {scope : Scope} (member : source ∈ tableItems scope)
    : source.source = none := by
  obtain ⟨⟨clause, position⟩, -, inside⟩ := List.mem_flatMap.mp member
  obtain ⟨id, -, rfl⟩ := List.mem_map.mp inside
  rfl

/-- A subquery is the first item. -/
theorem Items.head?_eq (all : query.Items index model items) (member : item ∈ items)
    (isSubquery : item.source.isSome)
    : items.head? = some item := by
  have notTable : ∀ others,
      List.Forall₂ (query.Placeable index model true) (tableItems (model.scope index)) others
      → item ∉ others := by
    intro others tables inside
    obtain ⟨position, at'⟩ := List.mem_iff_getElem?.mp inside
    obtain ⟨source, present, placeable⟩ := forall₂_getElem?_right tables at'
    have noSource := source_of_mem_tableItems (List.mem_of_getElem? present)
    rw [← placeable.same] at noSource
    have noSource : item.source = none := noSource
    simp [noSource] at isSubquery
  cases index with
  | zero => exact absurd member (notTable items all)
  | succ before =>
      cases all with
      | cons first rest =>
          rcases List.mem_cons.mp member with rfl | later
          · rfl
          · exact absurd later (notTable _ rest)

namespace Joined

variable {scope : Scope}

/-- An item of the select is one of a source. -/
theorem isSource (joined : query.Joined catalog model scope) (member : item ∈ scope.select.items)
    : IsSource query scope.index model item.bare :=
  isSource_of_mem (joined.perm.mem_iff.mp (List.mem_map_of_mem member))

/-- No variable is supplied twice. -/
theorem nodup (joined : query.Joined catalog model scope)
    (found : query.models[scope.index]? = some model)
    : (scope.select.items.flatMap (·.ids)).Nodup := by
  have sources := nodup_sources found
  rw [← (joined.perm.flatMap_right (·.ids)).nodup_iff, List.flatMap_map] at sources
  exact sources

/-- A subquery of the select is the one before the scope, with all that it supplies. -/
theorem subquery (joined : query.Joined catalog model scope) (member : item ∈ scope.select.items)
    {source : Nat} (isSubquery : item.source = some source)
    : source + 1 = scope.index
      ∧ item.ids = suppliedOf query.vars (itemsBefore query.models scope.index) := by
  obtain ⟨other, same, isSource⟩ : ∃ other,
      item.bare = other ∧ IsSource query scope.index model other :=
    ⟨_, rfl, joined.isSource member⟩
  have isSubquery : item.bare.source = some source := isSubquery
  have ids : item.ids = item.bare.ids := rfl
  rw [same] at isSubquery ids
  cases isSource with
  | subquery behind =>
      obtain rfl := Option.some.inj isSubquery
      exact ⟨behind.symm, ids⟩
  | table found declared => simp [FromItem.ofTable] at isSubquery

/-- A scope reads from the subquery before it and no other. -/
theorem reads (joined : query.Joined catalog model scope) (source : Nat)
    : (∃ item ∈ scope.select.fromItems, item.source = some source) ↔ source + 1 = scope.index := by
  constructor
  · rintro ⟨item, member, isSubquery⟩
    exact (joined.subquery (List.mem_append_left _ member) isSubquery).1
  · intro behind
    have isSource : FromItem.ofSubquery source
        (suppliedOf query.vars (itemsBefore query.models (source + 1)))
        ∈ query.sources scope.index model := by
      rw [← behind]
      exact List.mem_append_left _ (List.mem_singleton.mpr rfl)
    obtain ⟨item, member, same⟩ := List.mem_map.mp (joined.perm.mem_iff.mpr isSource)
    have isSubquery : item.source = some source := by
      have source := congrArg FromItem.source same
      exact source
    exact ⟨item, List.mem_of_mem_head?
      (joined.first item member (by simp [isSubquery])), isSubquery⟩

/-- A subquery is not joined. -/
theorem joined_source (joined : query.Joined catalog model scope)
    (found : query.models[scope.index]? = some model) {join : Join}
    (member : join ∈ scope.select.joins)
    : join.item.source = none := by
  cases source : join.item.source with
  | none => rfl
  | some other =>
      -- A joined subquery would be in the `FROM` as well, and supply its variables twice.
      have isJoined : join.item ∈ scope.select.joins.map (·.item) := List.mem_map_of_mem member
      have inSelect := List.mem_append_right scope.select.fromItems isJoined
      have inFrom := List.mem_of_mem_head? (joined.first _ inSelect (by simp [source]))
      have sound := (joined.sound _ inSelect).2
      have nodup := joined.nodup found
      rw [Select.items, List.flatMap_append] at nodup
      obtain ⟨-, -, disjoint⟩ := List.nodup_append.mp nodup
      cases ids : join.item.ids with
      | nil =>
          cases table : join.item.table <;> simp [FromItem.fault?, source, ids, table] at sound
      | cons id rest =>
          have supplies : id ∈ join.item.ids := by simp [ids]
          exact absurd rfl (disjoint id (List.mem_flatMap.mpr ⟨_, inFrom, supplies⟩) id
            (List.mem_flatMap.mpr ⟨_, isJoined, supplies⟩))

end Joined

variable {edges : List Edge} {order : List FromItem} {layout : Layout}

/-- An arrangement of the items of a scope gives an arranged scope. -/
theorem Items.joined (all : query.Items index model items)
    (refined : query.Refined catalog true vars)
    (found : query.models[index]? = some model) (forwarding : query.Forwarding)
    (housed : ∀ item ∈ items, vars.Housed item)
    (arranged : Arranged vars (fun id => ∃ item ∈ items, id ∈ item.ids) items edges order layout)
    (scope : Scope) (frame : scope.frame = (model.scope scope.index).frame)
    (sameIndex : scope.index = index) (fromItems : scope.select.fromItems = layout.fromItems)
    (joins : scope.select.joins = layout.joins)
    : query.Joined catalog model scope := by
  subst sameIndex
  have select : scope.select.items = layout.items := by
    rw [Select.items, fromItems, joins, Layout.items]
  have bound := fun item member => (housed item member).binding
  have isEdge {edge : Edge} : edge ∈ edges ↔ ∃ rel, query.IsEdge catalog model rel edge :=
    (arranged.mem_edges edge).trans (all.exists_isOf_iff refined found bound edge)
  have originals {item : FromItem} (member : item ∈ scope.select.items)
      : ∃ original ∈ items, item = original.cleared := by
    rw [select] at member
    obtain ⟨original, listed, rfl⟩ := List.mem_map.mp (arranged.items_perm.mem_iff.mp member)
    exact ⟨original, listed, rfl⟩
  have sorted := arranged.run.sorted ⟨by rintro _ ⟨⟩, by rintro _ ⟨⟩⟩
  refine {
    frame := frame
    perm := ?_
    sound := ?_
    first := ?_
    required := fromItems ▸ sorted.fromItems
    outer := joins ▸ sorted.joins
    sorted := joins ▸ arranged.joins_pairwise
    backed := ?_
    bound := ?_
    edges := ?_
    arrangement := ⟨vars, items, edges, order, layout, all, arranged, joins, fun _ => isEdge⟩
  }
  · rw [select, ← all.map_bare]
    refine (arranged.items_perm.map _).trans ?_
    rw [List.map_map]
    rfl
  · intro item member
    obtain ⟨original, listed, rfl⟩ := originals member
    refine ⟨rfl, ?_⟩
    exact (all.placeable listed).fault?_eq_none found forwarding fun _ id isTable =>
      (housed original listed id isTable).1
  · intro item member isSubquery
    obtain ⟨original, listed, rfl⟩ := originals member
    -- A subquery is the first item, and never optional, so that the arrangement starts with it.
    have head := all.head?_eq listed isSubquery
    have isRequired : original.optional = false := by
      rcases (all.placeable listed).subquery_or_table with
        ⟨_, -, -, -, isRequired, -⟩ | ⟨_, _, _, -, -, noSource, -⟩
      · exact isRequired
      · have isSubquery : original.source.isSome := isSubquery
        simp [noSource] at isSubquery
    have start := arranged.first original head isRequired
    have run := arranged.run
    cases order with
    | nil => simp at start
    | cons first rest =>
        obtain rfl := Option.some.inj start
        rw [fromItems]
        exact run.head?_fromItems isRequired
  · intro position join at' id refers isSupplied
    rw [fromItems, joins]
    have backed := arranged.run.backed (fun edge member => by
      obtain ⟨rel, isEdge⟩ := isEdge.mp member
      exact isEdge.resolved refined) (by simp [Layout.Marked, Layout.empty, Layout.items])
      fun position join at' => by cases at'
    rw [joins] at at'
    rw [← refined.resolve] at isSupplied ⊢
    refine backed position join at' id refers ?_
    obtain ⟨item, member, supplies⟩ := isSupplied
    obtain ⟨original, listed, rfl⟩ := originals member
    exact ⟨original, listed, supplies⟩
  · intro id declared rel isRelationship
    obtain ⟨clause, inClauses, inClause⟩ := List.mem_flatMap.mp declared
    obtain ⟨position, at'⟩ := List.mem_iff_getElem?.mp inClauses
    obtain ⟨item, listed, isTable, -⟩ := all.declared at' inClause
    obtain ⟨other, present, -⟩ := refined.grows.relationship? isRelationship
    obtain ⟨binding, isBound⟩ :=
      Option.isSome_iff_exists.mp (bound item listed id other isTable present)
    obtain ⟨same, own⟩ := (all.exists_isOf_iff refined found bound
      ⟨id, vars.resolve other.left, vars.resolve other.right, binding⟩).mp
        ⟨item, listed, other, isTable, present, isBound, rfl, rfl⟩
    obtain rfl := Option.some.inj (own.isRelationship.symm.trans isRelationship)
    exact ⟨_, rfl, own⟩
  · intro truth
    -- The three items of an edge are all placed, so that what is known of it is all it demands.
    rw [joins, arranged.edgesHold fun edge member item listed => by
      obtain ⟨rel, isEdge⟩ := isEdge.mp member
      exact isEdge.apart all found listed]
    constructor
    · intro known rel edge own
      obtain ⟨relationship, left, right⟩ := own.supplied all found
      rw [← Edge.known_iff_demands (arranged.mem_placed.mpr relationship)
        (arranged.mem_placed.mpr left) (arranged.mem_placed.mpr right)]
      exact known edge (isEdge.mpr ⟨rel, own⟩)
    · intro demands edge member
      obtain ⟨rel, own⟩ := isEdge.mp member
      obtain ⟨relationship, left, right⟩ := own.supplied all found
      rw [Edge.known_iff_demands (arranged.mem_placed.mpr relationship)
        (arranged.mem_placed.mpr left) (arranged.mem_placed.mpr right)]
      exact demands rel edge own

/-- The joins of a scope are arranged safely. -/
theorem Refined.arrangeScope {scope : Scope} (refined : query.Refined catalog true vars)
    (forwarding : query.Forwarding) (found : query.models[scope.index]? = some model)
    (prepared : query.Prepared true model scope)
    (tabled : ∀ item ∈ scope.select.fromItems, vars.Tabled item)
    : Safely (fun result =>
          query.Refined catalog true result.2
          ∧ vars.Keeps result.2
          ∧ result.1.index = scope.index
          ∧ query.Joined catalog model result.1
          ∧ ∀ item ∈ result.1.select.items, result.2.Housed item)
        (arrangeScope catalog scope vars) := by
  unfold Plan.arrangeScope
  simp only [prepared.joins, List.isEmpty_nil, Bool.not_true, Bool.false_eq_true, if_false,
    eachFromItem]
  rw [bind_assoc]
  refine (refined.narrowItems found prepared.items tabled _).bind ?_
  rintro ⟨items, later⟩ ⟨refined, keeps, all, housed⟩
  simp only [pure_bind]
  have bound := fun item member => (housed item member).binding
  refine (arrange_safely bound fun item member => all.pends refined found member).bind ?_
  rintro layout ⟨edges, order, arranged⟩
  have joined := all.joined refined found forwarding housed arranged
    { scope with
      select := { scope.select with fromItems := layout.fromItems, joins := layout.joins } }
    prepared.frame rfl rfl rfl
  have sound := List.findSome?_eq_none_iff.mpr fun item member => (joined.sound item member).2
  dsimp only at sound ⊢
  rw [sound]
  refine ⟨refined, keeps, rfl, joined, fun item member => ?_⟩
  obtain ⟨original, listed, rfl⟩ := List.mem_map.mp (arranged.items_perm.mem_iff.mp member)
  exact housed original listed

end QueryModel

/-- The joins of all scopes are arranged safely. -/
theorem arrangeJoins_safely {query : QueryModel} {catalog : Catalog} {draft : Draft}
    (refined : query.Refined catalog true draft.vars) (forwarding : query.Forwarding)
    (each
      : draft.tree.Each query.models fun model scope =>
          query.Prepared true model scope
          ∧ ∀ item ∈ scope.select.fromItems, draft.vars.Tabled item)
    (named : ∀ subquery ∈ draft.tree.subqueries, subquery.Named)
    : Safely (fun later =>
          query.Refined catalog true later.vars
          ∧ later.tree.Each query.models (fun model scope =>
              query.Joined catalog model scope
              ∧ ∀ item ∈ scope.select.items, later.vars.Housed item)
          ∧ ∀ subquery ∈ later.tree.subqueries, subquery.Named)
        (arrangeJoins catalog draft) := by
  have arranged := draft.eachScope_safely
    (fun vars => query.Refined catalog true vars ∧ draft.vars.Keeps vars)
    (fun old vars new => ∀ model,
      query.models[old.index]? = some model
      → new.index = old.index
        ∧ query.Joined catalog model new
        ∧ ∀ item ∈ new.select.items, vars.Housed item)
    VarTable.Keeps.threads (f := arrangeScope catalog) ?_
    ⟨refined, VarTable.Keeps.threads.refl _⟩ ?_
  · refine arranged.mono ?_
    rintro _ ⟨tree, vars, rfl, ⟨refined, -⟩, maps⟩
    refine ⟨refined, ?_, maps.named named⟩
    exact each.maps maps fun model old new found _ changed => changed model found
  · intro old vars later new keeps related model found
    obtain ⟨index, joined, housed⟩ := related model found
    exact ⟨index, joined, fun item member => (housed item member).keep keeps⟩
  · rintro scope member vars ⟨refined, keeps⟩
    obtain ⟨model, found, prepared, tabled⟩ := each.each scope member
    refine (refined.arrangeScope forwarding found prepared
      fun item member => (tabled item member).keep keeps).mono ?_
    rintro ⟨changed, later⟩ ⟨refined, keeps', related⟩
    refine ⟨⟨refined, VarTable.Keeps.threads.trans _ _ _ keeps keeps'⟩, keeps', ?_⟩
    intro other found'
    obtain rfl := Option.some.inj (found.symm.trans found')
    exact related

end CypherSql.Plan
