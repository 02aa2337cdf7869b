import Mathlib.Data.List.Nodup
import CypherSql.Proofs.Filters.Placed
import CypherSql.Proofs.RelationshipLookup
import CypherSql.Proofs.WrittenLabels

/-! The tables of nodes. A node whose own labels single out a table gets that one. Any other node
waits for the labels that the relationships of its scope fix for it. No variable has two items, so
that what is found for one node is not changed by another.
-/

namespace CypherSql.Plan

/-- The variables of the tables among items. -/
def tableIds (items : List FromItem) : List VarId :=
  items.flatMap (·.tableVar?.toList)

theorem mem_tableIds {items : List FromItem} {id : VarId}
    : id ∈ tableIds items ↔ ∃ item ∈ items, item.tableVar? = some id := by
  simp [tableIds, eq_comm]

/-- The change of an item concerns no variable but that of its table. -/
def FromItem.Touches (item : FromItem) (vars later : VarTable) : Prop :=
  ∀ id, item.tableVar? ≠ some id → later.definition? id = vars.definition? id

/-- The item is changed as if it were alone: its variable is to its change as in the first table,
and in the last one as the change leaves it.
-/
def FromItem.ChangesAlone (inv : VarTable → Prop)
    (f : FromItem → VarTable → Except LoweringError (FromItem × VarTable)) (first last : VarTable)
    (item new : FromItem)
    : Prop :=
  ∃ before after,
    inv before
    ∧ f item before = .ok (new, after)
    ∧ ∀ id,
        item.tableVar? = some id
        → before.definition? id = first.definition? id
          ∧ last.definition? id = after.definition? id

/-- The tables around the change may be others that have the same of its variable. -/
theorem FromItem.ChangesAlone.within {inv : VarTable → Prop}
    {f : FromItem → VarTable → Except LoweringError (FromItem × VarTable)}
    {first last outerFirst outerLast : VarTable} {item new : FromItem}
    (alone : item.ChangesAlone inv f first last new)
    (same
      : ∀ id,
          item.tableVar? = some id
          → first.definition? id = outerFirst.definition? id
            ∧ outerLast.definition? id = last.definition? id)
    : item.ChangesAlone inv f outerFirst outerLast new := by
  obtain ⟨before, after, kept, runs, own⟩ := alone
  refine ⟨before, after, kept, runs, fun id isTable => ?_⟩
  obtain ⟨sameFirst, sameLast⟩ := same id isTable
  obtain ⟨ownFirst, ownLast⟩ := own id isTable
  exact ⟨ownFirst.trans sameFirst, sameLast.trans ownLast⟩

/-- Items of a scope that have different variables and touch no others are changed as if each were
alone.
-/
theorem eachFromItem_apart {inv : VarTable → Prop}
    {f : FromItem → VarTable → Except LoweringError (FromItem × VarTable)} {scope : Scope}
    (each
      : ∀ item ∈ scope.select.fromItems,
          ∀ vars result,
            inv vars → f item vars = .ok result → inv result.2 ∧ item.Touches vars result.2)
    (apart : (tableIds scope.select.fromItems).Nodup) {vars : VarTable} (holds : inv vars)
    {result : Scope × VarTable} (succeeded : eachFromItem f scope vars = .ok result)
    : (∀ id ∉ tableIds scope.select.fromItems, result.2.definition? id = vars.definition? id)
      ∧ List.Forall₂ (FromItem.ChangesAlone inv f vars result.2) scope.select.fromItems
          result.1.select.fromItems := by
  obtain ⟨⟨items, last⟩, changed, same⟩ := bind_eq_ok.mp succeeded
  obtain rfl := Except.ok.inj same
  rw [eachItem_eq] at changed
  have alone := @mapM_run_apart _ _ (fun item : FromItem => item.tableVar?.toList) inv _ _
    (fun item member vars result holds changed => by
      obtain ⟨kept, touches⟩ := each item member vars result holds changed
      exact ⟨kept, fun id absent => touches id (by simpa using absent)⟩)
    apart vars vars (fun _ _ => rfl) holds _ changed
  refine ⟨alone.1, alone.2.imp fun item new changes => ?_⟩
  obtain ⟨before, after, kept, runs, own⟩ := changes
  exact ⟨before, after, kept, runs, fun id isTable => own id (by simp [isTable])⟩

/-- So are the scopes of a draft. -/
theorem Draft.eachScope_apart {inv : VarTable → Prop}
    {f : Scope → VarTable → Except LoweringError (Scope × VarTable)} {draft later : Draft}
    (each
      : ∀ scope ∈ draft.tree.scopes,
          ∀ vars result,
            inv vars
            → f scope vars = .ok result
            → inv result.2
              ∧ ∀ id ∉ tableIds scope.select.fromItems,
                  result.2.definition? id = vars.definition? id)
    (apart : (draft.tree.scopes.flatMap fun scope => tableIds scope.select.fromItems).Nodup)
    (holds : inv draft.vars) (succeeded : draft.eachScope f = .ok later)
    : ∀ scope ∈ later.tree.scopes,
        ∃ old ∈ draft.tree.scopes,
          ∃ first last,
            inv first
            ∧ f old first = .ok (scope, last)
            ∧ ∀ id ∈ tableIds old.select.fromItems,
                first.definition? id = draft.vars.definition? id
                ∧ later.vars.definition? id = last.definition? id := by
  intro scope member
  obtain ⟨-, relations⟩ := @mapM_run_apart _ _
    (fun scope : Scope => tableIds scope.select.fromItems) inv _ _ each apart draft.vars draft.vars
    (fun _ _ => rfl) holds _ (Draft.mapM_run_of_eachScope succeeded)
  exact exists_mem_of_forall₂ relations member

namespace QueryModel

variable {query : QueryModel} {catalog : Catalog} {vars : VarTable} {model : ScopeModel}
  {scope : Scope} {tabled : Bool} {draft later : Draft}

/-- The tables of a scope are those of the variables that its clauses declare. -/
theorem Prepared.tableIds_eq (prepared : query.Prepared tabled model scope)
    : tableIds scope.select.fromItems = clauseIds model.clauses := by
  have bare : scope.select.fromItems.map FromItem.bare = query.sources scope.index model := by
    rw [map_eq_of_forall₂ prepared.items (f := id) fun _ _ placeable => placeable.same, List.map_id]
  rw [tableIds, ← List.filterMap_eq_flatMap_toList, ← filterMap_tableVar?_sources query scope.index,
    ← bare, List.filterMap_map]
  rfl

/-- No variable has two tables, be it in one scope or in several. -/
theorem nodup_tableIds (each : draft.tree.Each query.models (query.Prepared tabled))
    : (draft.tree.scopes.flatMap fun scope => tableIds scope.select.fromItems).Nodup := by
  have indices : (draft.tree.scopes.map (·.index)).Nodup := each.indexed ▸ List.nodup_range
  refine List.nodup_flatMap.mpr ⟨fun scope member => ?_, ?_⟩
  · obtain ⟨model, found, prepared⟩ := each.each scope member
    rw [prepared.tableIds_eq]
    exact (query.collected.inScope found).clauses.distinct
  · refine (List.pairwise_map.mp indices).imp_of_mem ?_
    intro first second inFirst inSecond different id own other
    obtain ⟨model, found, prepared⟩ := each.each first inFirst
    obtain ⟨model', found', prepared'⟩ := each.each second inSecond
    have own : id ∈ tableIds first.select.fromItems := own
    have other : id ∈ tableIds second.select.fromItems := other
    rw [prepared.tableIds_eq] at own
    rw [prepared'.tableIds_eq] at other
    obtain ⟨var, present, here, -⟩ := element_of_mem_clauseIds found own
    obtain ⟨var', present', there, -⟩ := element_of_mem_clauseIds found' other
    obtain rfl := Option.some.inj (present.symm.trans present')
    exact different (here.symm.trans there)

end QueryModel

section Items

variable {catalog : Catalog} {item : FromItem} {vars : VarTable} {id : VarId} {node : NodeVar}
  {result : FromItem × VarTable}

theorem FromItem.Retables.tableVar?_eq {later : FromItem} (retables : item.Retables later)
    : later.tableVar? = item.tableVar? := by
  obtain ⟨table, rfl⟩ := retables
  rfl

theorem resolveItem_touches (succeeded : resolveItem catalog item vars = .ok result)
    : item.Touches vars result.2 := by
  intro other different
  unfold resolveItem at succeeded
  split at succeeded
  · rename_i id untabled isTable
    obtain ⟨found, -, succeeded⟩ := bind_eq_ok.mp succeeded
    cases found with
    | none =>
        obtain rfl := Except.ok.inj succeeded
        rfl
    | some entry =>
        obtain rfl := Except.ok.inj succeeded
        apply VarTable.definition?_redefine_of_ne
        intro same
        exact different (same ▸ isTable)
  · obtain rfl := Except.ok.inj succeeded
    rfl

/-- A node keeps its labels when its table is looked up, and a table that is found is that of its
binding.
-/
theorem resolveItem_node (untabled : item.table = none) (isTable : item.tableVar? = some id)
    (succeeded : resolveItem catalog item vars = .ok result)
    (isNode : result.2.node? id = some node)
    : vars.labels id = node.labels
      ∧ ∀ table,
          result.1.table = some table
          → ∃ binding,
              node.binding = some binding
              ∧ binding.table = table
              ∧ catalog.node node.labels = .ok binding := by
  unfold resolveItem at succeeded
  simp only [untabled, isTable] at succeeded
  obtain ⟨found, isFound, succeeded⟩ := bind_eq_ok.mp succeeded
  cases found with
  | none =>
      obtain rfl := Except.ok.inj succeeded
      exact ⟨VarTable.labels_of_node isNode, fun table hasTable => by simp [untabled] at hasTable⟩
  | some entry =>
      obtain ⟨table, definition⟩ := entry
      obtain rfl := Except.ok.inj succeeded
      unfold tableOf at isFound
      split at isFound
      · cases isFound
      · rename_i var present
        have isNode := VarTable.node?_eq_some.mp isNode
        rw [VarTable.definition?_redefine_self present] at isNode
        obtain rfl := Option.some.inj isNode
        split at isFound
        · rename_i old kind
          unfold nodeTable at isFound
          split at isFound
          · rename_i binding answer
            obtain ⟨⟨rfl⟩, ⟨rfl⟩⟩ := Prod.mk.inj (Option.some.inj (Except.ok.inj isFound))
            refine ⟨?_, ?_⟩
            · rw [VarTable.labels, VarTable.definition?_of_get? present, kind]
              rfl
            · rintro table ⟨⟩
              exact ⟨binding, rfl, rfl, answer⟩
          · cases isFound
          · cases isFound
        · rename_i rel kind
          simp only [relationshipTable] at isFound
          split at isFound
          · simp at isFound
          · split at isFound
            · split at isFound <;> cases isFound
            · cases isFound
        · cases isFound

theorem narrowItem_touches {relationships : List VarId}
    (succeeded : narrowItem catalog relationships item vars = .ok result)
    : item.Touches vars result.2 := by
  intro other different
  unfold narrowItem at succeeded
  split at succeeded
  · rename_i id untabled isTable
    split at succeeded
    · dsimp only at succeeded
      split at succeeded
      · obtain rfl := Except.ok.inj succeeded
        apply VarTable.definition?_redefine_of_ne
        intro same
        exact different (same ▸ isTable)
      · cases succeeded
    · obtain rfl := Except.ok.inj succeeded
      rfl
  · obtain rfl := Except.ok.inj succeeded
    rfl

/-- A node with a table stays as it is. Any other gets the labels that relationships fix for it, and
the table of its binding for all its labels.
-/
theorem narrowItem_node {relationships : List VarId} (isTable : item.tableVar? = some id)
    (succeeded : narrowItem catalog relationships item vars = .ok result)
    (isNode : result.2.node? id = some node)
    : (∃ table, item.table = some table ∧ result.1 = item ∧ vars.node? id = some node)
      ∨ ∃ old binding,
          vars.node? id = some old
          ∧ node.labels = old.labels.insertAll (relationships.flatMap (fixedLabels vars id))
          ∧ node.binding = some binding
          ∧ result.1.table = some binding.table
          ∧ catalog.node node.labels = .ok binding := by
  unfold narrowItem at succeeded
  cases hasTable : item.table with
  | some table =>
      simp only [hasTable] at succeeded
      obtain rfl := Except.ok.inj succeeded
      exact .inl ⟨table, rfl, rfl, isNode⟩
  | none =>
      simp only [hasTable, isTable] at succeeded
      split at succeeded
      · rename_i old present
        split at succeeded
        · rename_i binding answer
          obtain rfl := Except.ok.inj succeeded
          have isNode := VarTable.node?_eq_some.mp isNode
          rw [VarTable.definition?_redefine_self present] at isNode
          obtain rfl := Definition.node.inj (Option.some.inj isNode)
          refine .inr ⟨old, binding, ?_, rfl, rfl, rfl, answer⟩
          exact VarTable.node?_eq_some.mpr (VarTable.definition?_of_get? present)
        · cases succeeded
      · rename_i other
        obtain rfl := Except.ok.inj succeeded
        obtain ⟨⟨name, own, scope, definition⟩, present, kind⟩ :=
          VarTable.definition?_eq_some.mp (VarTable.node?_eq_some.mp isNode)
        subst kind
        exact (other _ _ _ _ present).elim

end Items

namespace QueryModel

variable {query : QueryModel} {catalog : Catalog} {vars : VarTable} {model : ScopeModel}
  {scope : Scope} {draft later : Draft}

/-- Once tables are looked up, nodes have the labels that were collected, and the table of an item
is that of the binding that is found for these labels.
-/
structure LookedUp (query : QueryModel) (catalog : Catalog) (item : FromItem) (id : VarId)
    (node : NodeVar)
    : Prop where
  labels : node.labels = query.vars.labels id
  table
    : ∀ table,
        item.table = some table
        → ∃ binding,
            node.binding = some binding
            ∧ binding.table = table
            ∧ catalog.node node.labels = .ok binding

/-- The tables of nodes are looked up by the labels that were collected. -/
theorem SameLabels.resolveTables (sameLabels : query.SameLabels draft.vars)
    (each : draft.tree.Each query.models (query.Prepared false))
    (succeeded : resolveTables catalog draft = .ok later)
    : ∀ scope ∈ later.tree.scopes,
        ∀ item ∈ scope.select.fromItems,
          ∀ id node,
            item.tableVar? = some id
            → later.vars.node? id = some node
            → query.LookedUp catalog item id node := by
  have alone {scope : Scope} (member : scope ∈ draft.tree.scopes) {vars : VarTable}
      {result : Scope × VarTable}
      (changed : eachFromItem (resolveItem catalog) scope vars = .ok result)
      : (∀ id ∉ tableIds scope.select.fromItems, result.2.definition? id = vars.definition? id)
        ∧ List.Forall₂ (FromItem.ChangesAlone (fun _ => True) (resolveItem catalog) vars result.2)
            scope.select.fromItems result.1.select.fromItems := by
    obtain ⟨model, found, prepared⟩ := each.each scope member
    have apart := (query.collected.inScope found).clauses.distinct
    exact eachFromItem_apart (fun item _ vars result _ changed =>
      ⟨trivial, resolveItem_touches changed⟩) (prepared.tableIds_eq ▸ apart) trivial changed
  intro scope member item listed id node isTable isNode
  obtain ⟨old, inScopes, first, last, -, changed, ownScope⟩ := @Draft.eachScope_apart
    (fun _ => True) _ _ _ (fun scope member _ _ _ changed => ⟨trivial, (alone member changed).1⟩)
    (nodup_tableIds each) trivial succeeded scope member
  obtain ⟨model, found, prepared⟩ := each.each old inScopes
  obtain ⟨source, inItems, changes⟩ := exists_mem_of_forall₂ (alone inScopes changed).2 listed
  obtain ⟨before, after, -, resolved, own⟩ := changes.within fun other isTable =>
    ownScope other (mem_tableIds.mpr ⟨source, inItems, isTable⟩)
  rw [(resolveItem_retables resolved).tableVar?_eq] at isTable
  -- The node is looked up as it was collected, and stays as it is left then.
  obtain ⟨sameBefore, sameAfter⟩ := own id isTable
  have untabled : source.table = none := by
    obtain ⟨_, -, placeable⟩ := exists_mem_of_forall₂ prepared.items inItems
    exact placeable.untabled rfl
  obtain ⟨labels, table⟩ :=
    resolveItem_node untabled isTable resolved (VarTable.node?_congr sameAfter.symm isNode)
  refine ⟨?_, table⟩
  rw [← labels, VarTable.labels, sameBefore, sameLabels id]
  rfl

end QueryModel

/-- What the relationship of an edge fixes for a node is among the labels that it is narrowed by. -/
theorem Edge.IsOf.mem_fixedLabels {edge : Edge} {vars : VarTable} {item : FromItem}
    (isOf : edge.IsOf vars item) {node : VarId} {label : String}
    (fixes : edge.binding.Fixes edge.left edge.right node label)
    : label ∈ fixedLabels vars node edge.relationship := by
  obtain ⟨rel, -, isRelationship, isBound, left, right⟩ := isOf
  obtain ⟨relLeft, relRight, direction, types, restriction, required, binding⟩ := rel
  dsimp only at isBound left right
  subst isBound
  simp only [fixedLabels, isRelationship, List.mem_append]
  rcases fixes with ⟨isEnd, fixed⟩ | ⟨isEnd, fixed⟩
  · left
    rw [if_pos (left.trans isEnd), fixed]
    simp
  · right
    rw [if_pos (right.trans isEnd), fixed]
    simp

namespace QueryModel

variable {query : QueryModel} {catalog : Catalog} {vars : VarTable} {model : ScopeModel}
  {scope : Scope} {draft later : Draft}

/-- The table of the item of a node is that of the binding that is found for its labels. These
include what was collected and, unless that singled out the table, all that the relationships of the
scope fix for the node.
-/
structure NodeTable (query : QueryModel) (catalog : Catalog) (model : ScopeModel) (item : FromItem)
    (id : VarId) (node : NodeVar)
    : Prop where
  table
    : ∃ binding,
        node.binding = some binding
        ∧ item.table = some binding.table
        ∧ catalog.node node.labels = .ok binding
  collected : ∀ label ∈ query.vars.labels id, label ∈ node.labels
  fixed
    : node.labels = query.vars.labels id
      ∨ ∀ rel edge label,
          query.IsEdge catalog model rel edge
          → edge.binding.Fixes edge.left edge.right id label
          → label ∈ node.labels

/-- The items of an arranged scope are those that are narrowed, each as if it were alone. -/
theorem Refined.arrangeScope_alone (refined : query.Refined catalog true vars)
    (keeps : draft.vars.Keeps vars) (forwarding : query.Forwarding)
    (found : query.models[scope.index]? = some model) (prepared : query.Prepared true model scope)
    (tabled : ∀ item ∈ scope.select.fromItems, draft.vars.Tabled item) {result : Scope × VarTable}
    (succeeded : Plan.arrangeScope catalog scope vars = .ok result)
    : (query.Refined catalog true result.2 ∧ draft.vars.Keeps result.2)
      ∧ (∀ id ∉ tableIds scope.select.fromItems, result.2.definition? id = vars.definition? id)
      ∧ result.1.index = scope.index
      ∧ ∃ items,
          result.1.select.items.Perm (items.map FromItem.cleared)
          ∧ List.Forall₂
              (FromItem.ChangesAlone
                (fun vars => query.Refined catalog true vars ∧ draft.vars.Keeps vars)
                (Plan.narrowItem catalog (relationshipItems vars scope.select.fromItems))
                vars result.2)
              scope.select.fromItems items := by
  have here := fun item member => (tabled item member).keep keeps
  obtain ⟨refinedLater, keepsLater, index, -⟩ :=
    (refined.arrangeScope forwarding found prepared here).of_ok succeeded
  refine ⟨⟨refinedLater, VarTable.Keeps.threads.trans _ _ _ keeps keepsLater⟩, ?_⟩
  unfold Plan.arrangeScope at succeeded
  simp only [prepared.joins, List.isEmpty_nil, Bool.not_true, Bool.false_eq_true, if_false]
    at succeeded
  obtain ⟨⟨narrowed, last⟩, narrows, succeeded⟩ := bind_eq_ok.mp succeeded
  obtain ⟨layout, arranges, succeeded⟩ := bind_eq_ok.mp succeeded
  have items := narrows
  obtain ⟨⟨changed, final⟩, changes, same⟩ := bind_eq_ok.mp items
  obtain ⟨rfl, rfl⟩ := Prod.mk.inj (Except.ok.inj same)
  obtain ⟨refinedLast, -, all, housed⟩ :=
    (refined.narrowItems found prepared.items here _).of_ok changes
  have bound := fun item member => (housed item member).binding
  obtain ⟨edges, order, arranged⟩ :=
    (arrange_safely bound fun item member => all.pends refinedLast found member).of_ok arranges
  have distinct := (query.collected.inScope found).clauses.distinct
  have apart := @eachFromItem_apart
    (fun vars => query.Refined catalog true vars ∧ draft.vars.Keeps vars) _ _
    (fun item member vars result holds narrowed => by
      obtain ⟨source, -, placeable⟩ := exists_mem_of_forall₂ prepared.items member
      obtain ⟨refinedNext, keepsNext, -⟩ := (holds.1.narrowItem found placeable
        ((tabled item member).keep holds.2) _).of_ok narrowed
      exact ⟨⟨refinedNext, VarTable.Keeps.threads.trans _ _ _ holds.2 keepsNext⟩,
        narrowItem_touches narrowed⟩)
    (prepared.tableIds_eq ▸ distinct) vars ⟨refined, keeps⟩ _ narrows
  dsimp only at succeeded
  split at succeeded
  · cases succeeded
  · obtain rfl := Except.ok.inj succeeded
    exact ⟨apart.1, index, changed, arranged.items_perm, apart.2⟩

/-- Where joins are arranged, every node has the table of its labels. -/
theorem Refined.arrangeJoins_nodes (refined : query.Refined catalog true draft.vars)
    (forwarding : query.Forwarding)
    (each
      : draft.tree.Each query.models fun model scope =>
          query.Prepared true model scope
          ∧ ∀ item ∈ scope.select.fromItems, draft.vars.Tabled item)
    (lookedUp
      : ∀ scope ∈ draft.tree.scopes,
          ∀ item ∈ scope.select.fromItems,
            ∀ id node,
              item.tableVar? = some id
              → draft.vars.node? id = some node
              → query.LookedUp catalog item id node)
    (succeeded : arrangeJoins catalog draft = .ok later)
    : ∀ scope ∈ later.tree.scopes,
        ∃ model,
          query.models[scope.index]? = some model
          ∧ ∀ item ∈ scope.select.items,
              ∀ id node,
                item.tableVar? = some id
                → later.vars.node? id = some node
                → query.NodeTable catalog model item id node := by
  intro scope member
  obtain ⟨old, inScopes, first, last, holds, changed, ownScope⟩ := @Draft.eachScope_apart
    (fun vars => query.Refined catalog true vars ∧ draft.vars.Keeps vars) _ _ _
    (fun scope member vars result holds changed => by
      obtain ⟨model, found, prepared, tabled⟩ := each.each scope member
      obtain ⟨kept, frame, -⟩ :=
        holds.1.arrangeScope_alone holds.2 forwarding found prepared tabled changed
      exact ⟨kept, frame⟩)
    (nodup_tableIds (each.mono fun _ _ _ fits => fits.1)) ⟨refined, VarTable.Keeps.threads.refl _⟩
    succeeded scope member
  obtain ⟨model, found, prepared, tabled⟩ := each.each old inScopes
  obtain ⟨-, -, index, items, perm, alone⟩ :=
    holds.1.arrangeScope_alone holds.2 forwarding found prepared tabled changed
  refine ⟨model, index ▸ found, fun item listed id node isTable isNode => ?_⟩
  obtain ⟨narrowed, inItems, rfl⟩ := List.mem_map.mp (perm.mem_iff.mp listed)
  obtain ⟨source, inSources, changes⟩ := exists_mem_of_forall₂ alone inItems
  obtain ⟨before, after, kept, narrows, own⟩ := changes.within fun other isTable =>
    ownScope other (mem_tableIds.mpr ⟨source, inSources, isTable⟩)
  have isTable : source.tableVar? = some id := by
    rw [← (narrowItem_retables narrows).tableVar?_eq]
    exact isTable
  -- The node is narrowed as it was looked up, and stays as it is left then.
  obtain ⟨sameBefore, sameAfter⟩ := own id isTable
  have isNode := VarTable.node?_congr sameAfter.symm isNode
  have drafted {other : NodeVar} (unchanged : before.node? id = some other)
      : draft.vars.node? id = some other :=
    VarTable.node?_congr sameBefore.symm unchanged
  rcases narrowItem_node isTable narrows isNode with
    ⟨table, hasTable, same, unchanged⟩ |
    ⟨unchanged, binding, wasNode, labels, isBound, hasTable, answer⟩
  · have found := lookedUp old inScopes source inSources id node isTable (drafted unchanged)
    obtain ⟨binding, isBound, sameTable, answer⟩ := found.table table hasTable
    have same : narrowed = source := same
    exact {
      table := ⟨binding, isBound, by rw [FromItem.cleared, same, hasTable, sameTable], answer⟩
      collected := fun label member => found.labels ▸ member
      fixed := .inl found.labels
    }
  · refine ⟨⟨binding, isBound, hasTable, answer⟩, ?_, .inr ?_⟩
    · intro label member
      rw [labels, NameSet.mem_insertAll]
      right
      rw [(lookedUp old inScopes source inSources id unchanged isTable (drafted wasNode)).labels]
      exact member
    · intro rel edge label isEdge fixes
      rw [labels, NameSet.mem_insertAll]
      left
      obtain ⟨other, inOthers, isOf⟩ := (Items.exists_isOf_iff prepared.items kept.1 found
        (fun item member => ((tabled item member).keep kept.2).binding) edge).mpr ⟨rel, isEdge⟩
      refine List.mem_flatMap.mpr ⟨edge.relationship, ?_, isOf.mem_fixedLabels fixes⟩
      obtain ⟨own, ownTable, isRelationship, -⟩ := isOf
      refine List.mem_filter.mpr ⟨List.mem_filterMap.mpr ⟨other, inOthers, ownTable⟩, ?_⟩
      rw [holds.2.relationships, ← kept.2.relationships, isRelationship]
      rfl

end QueryModel

end CypherSql.Plan
