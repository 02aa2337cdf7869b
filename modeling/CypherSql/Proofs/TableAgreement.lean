import CypherSql.Proofs.NodeTables
import CypherSql.Proofs.SubqueryColumns

/-! The tables of a lowered query agree with the mappings that they are joined through. They are
found where joins are arranged, and no later step touches a table or what is known of its variable.
-/

namespace CypherSql.Plan

/-- The tables of each later scope are those of a scope of the draft, and what is known of variables
was known in the draft, but for what they project and what is read of them.
-/
structure Draft.KeepsTables (draft later : Draft) : Prop where
  scopes
    : ∀ scope ∈ later.tree.scopes,
        ∃ old ∈ draft.tree.scopes,
          ∀ item ∈ scope.select.items, item.tableVar?.isSome → item ∈ old.select.items
  stamps
    : ∀ id definition,
        later.vars.definition? id = some definition
        → ∃ old, draft.vars.definition? id = some old ∧ definition.stamp = old.stamp

namespace Draft.KeepsTables

variable {draft middle later : Draft} {id : VarId}

/-- A node keeps its labels and its binding. -/
theorem node (keeps : draft.KeepsTables later) {node : NodeVar}
    (isNode : later.vars.node? id = some node)
    : ∃ old,
        draft.vars.node? id = some old ∧ old.labels = node.labels ∧ old.binding = node.binding := by
  obtain ⟨definition, found, same⟩ := keeps.stamps id _ (VarTable.node?_eq_some.mp isNode)
  cases definition with
  | node old =>
      have same := Definition.node.inj same
      refine ⟨old, VarTable.node?_eq_some.mpr found, ?_, ?_⟩
      · exact (congrArg NodeVar.labels same).symm
      · exact (congrArg NodeVar.binding same).symm
  | _ => cases same

/-- A relationship keeps its ends and its binding. -/
theorem relationship (keeps : draft.KeepsTables later) {rel : RelationshipVar}
    (isRelationship : later.vars.relationship? id = some rel)
    : ∃ old,
        draft.vars.relationship? id = some old
        ∧ old.left = rel.left
        ∧ old.right = rel.right
        ∧ old.binding = rel.binding := by
  obtain ⟨definition, found, same⟩ :=
    keeps.stamps id _ (VarTable.relationship?_eq_some.mp isRelationship)
  cases definition with
  | relationship old =>
      have same := Definition.relationship.inj same
      refine ⟨old, VarTable.relationship?_eq_some.mpr found, ?_, ?_, ?_⟩
      · exact (congrArg RelationshipVar.left same).symm
      · exact (congrArg RelationshipVar.right same).symm
      · exact (congrArg RelationshipVar.binding same).symm
  | _ => cases same

/-- Finding exports touches neither scopes nor variables. -/
theorem findExports (succeeded : findExports draft = .ok later) : draft.KeepsTables later where
  scopes := by
    intro scope member
    rw [findExports_scopes succeeded] at member
    exact ⟨scope, member, fun item listed _ => listed⟩
  stamps := by
    intro id definition found
    rw [Draft.findExports_vars succeeded] at found
    exact ⟨definition, found, rfl⟩

/-- Rewriting expressions leaves tables alone, once conditions are placed. -/
theorem alike (keeps : draft.KeepsTables middle) (handsOver : middle.tree.HandsOver middle.vars)
    (maps : middle.tree.Maps Scope.Alike later.tree) (same : middle.vars.SameStamps later.vars)
    : draft.KeepsTables later := by
  constructor
  · intro scope member
    obtain ⟨between, present, alike⟩ := maps.of_mem member
    obtain ⟨old, inScopes, tables⟩ := keeps.scopes between present
    refine ⟨old, inScopes, fun item listed isTable => tables item ?_ isTable⟩
    have placed := handsOver.placed between present
    rw [Select.items, alike.fromItems_eq placed, alike.joins_eq placed] at listed
    exact listed
  · intro id definition found
    obtain ⟨var, present, rfl⟩ := VarTable.definition?_eq_some.mp found
    obtain ⟨between, present', stamp⟩ := same.symm.get? present
    obtain ⟨old, found', sameStamp⟩ := keeps.stamps id _ (VarTable.definition?_of_get? present')
    have stamp : between.definition.stamp = var.definition.stamp :=
      congrArg Variable.definition stamp
    exact ⟨old, found', stamp.symm.trans sameStamp⟩

/-- A subquery that drops a variable leaves tables alone. -/
theorem unproject (keeps : draft.KeepsTables middle) (handsOver : middle.tree.HandsOver middle.vars)
    {source : Nat} (within : source < middle.tree.subqueries.length)
    : draft.KeepsTables
        { middle with tree := middle.tree.unproject source id, vars := middle.vars.remove id } := by
  constructor
  · intro scope member
    rw [handsOver.indexed.scopes_unproject within] at member
    obtain ⟨between, present, rfl⟩ := List.mem_map.mp member
    obtain ⟨old, inScopes, tables⟩ := keeps.scopes between present
    refine ⟨old, inScopes, fun item listed isTable => tables item ?_ isTable⟩
    rw [Select.items, Scope.unproject_fromItems, Scope.unproject_joins] at listed
    rcases List.mem_append.mp listed with inFrom | joined
    · obtain ⟨item, inItems, rfl⟩ := List.mem_map.mp inFrom
      -- Only items of subqueries lose a variable.
      unfold FromItem.without at isTable ⊢
      split at isTable
      · rename_i isSource
        simp [FromItem.tableVar?, isSource] at isTable
      · rename_i elsewhere
        rw [if_neg elsewhere]
        exact List.mem_append_left _ inItems
    · exact List.mem_append_right _ joined
  · intro other definition found
    dsimp only at found
    rw [VarTable.definition?_remove] at found
    split at found
    · cases found
    · exact keeps.stamps other definition found

/-- Tables are left alone while expressions are simplified. -/
theorem lasting (draft : Draft)
    : Draft.Lasting fun later => later.HandsOver ∧ draft.KeepsTables later where
  rewrite := fun middle later holds maps reworded =>
    ⟨Draft.HandsOver.lasting.rewrite middle later holds.1 maps reworded,
      holds.2.alike holds.1.tree maps reworded.stamps⟩
  drop := fun middle source id holds within noPath =>
    ⟨Draft.HandsOver.lasting.drop middle source id holds.1 within noPath,
      holds.2.unproject holds.1.tree within⟩

end Draft.KeepsTables

/-- A lowered query has the tables that were found where its joins were arranged. -/
theorem lower_keepsTables {catalog : Catalog} {query : Cypher.Query} {lowered : Lowered}
    (succeeded : lower catalog query = .ok lowered)
    : ∃ start arranged later,
        Draft.ofQuery query = .ok start
        ∧ runSteps catalog Step.arrangeJoins.upTo start = .ok arranged
        ∧ arranged.KeepsTables later
        ∧ lowered.tree = later.tree
        ∧ lowered.vars = later.vars := by
  obtain ⟨start, arranged, exported, simple, begins, arranges, finds, simplifies, -, same⟩ :=
    exists_of_lower succeeded
  obtain ⟨handsOver, keeps⟩ := (Draft.KeepsTables.lasting arranged).simplified
    ⟨.of_arranged begins arranges finds, .findExports finds⟩ simplifies
  obtain ⟨maps, stamps⟩ := simple.finished_alike
  exact ⟨start, arranged, _, begins, arranges, keeps.alike handsOver.tree maps stamps, same⟩

namespace QueryModel

variable {query : QueryModel} {topology : Topology} {model : ScopeModel} {scope : Scope}
  {item : FromItem} {id : VarId} {start arranged : Draft}

/-- The table of a node has the labels that were collected for the node. It has those that the
relationships of the scope fix for the node too, unless there are no collected ones and the topology
knows one table for that.
-/
theorem NodeTable.agrees {node : NodeVar}
    (table : query.NodeTable topology.catalog model item id node)
    : ∃ binding,
        node.binding = some binding
        ∧ item.table = some binding.table
        ∧ (∀ label ∈ query.vars.labels id, label ∈ binding.labels)
        ∧ ((∀ rel edge label,
              query.IsEdge topology.catalog model rel edge
              → edge.binding.Fixes edge.left edge.right id label
              → label ∈ binding.labels)
            ∨ query.vars.labels id = ∅ ∧ topology.lookupNode ∅ = .ok binding) := by
  obtain ⟨binding, isBound, hasTable, answer⟩ := table.table
  have inBinding {label : String} (member : label ∈ node.labels) : label ∈ binding.labels :=
    Topology.mem_labels_of_lookupNode answer member
  refine ⟨binding, isBound, hasTable,
    fun label member => inBinding (table.collected label member), ?_⟩
  rcases table.fixed with same | fixed
  · by_cases none : query.vars.labels id = ∅
    · right
      rw [same, none] at answer
      exact ⟨none, answer⟩
    · -- The relationship was looked up with the labels of the node, and so fixes one of them.
      left
      intro rel edge label isEdge fixes
      have admitted
          : edge.binding.Admitted (query.vars.labels edge.left) (query.vars.labels edge.right) := by
        have admitted := Topology.admitted_of_lookupRelationship isEdge.binding
        rwa [endpointLabels_eq, endpointLabels_eq, isEdge.left, isEdge.right] at admitted
      apply inBinding
      rw [same]
      exact (admitted.mem_of_fixes fixes).resolve_left none
  · left
    intro rel edge label isEdge fixes
    exact inBinding (fixed rel edge label isEdge fixes)

/-- Where the joins of a query are arranged, every node has its table. -/
theorem After.nodeTables (after : query.After topology.catalog start .collectVariables)
    (arranges : runSteps topology.catalog Step.arrangeJoins.upTo start = .ok arranged)
    : ∀ scope ∈ arranged.tree.scopes,
        ∃ model,
          query.models[scope.index]? = some model
          ∧ ∀ item ∈ scope.select.items,
              ∀ id node,
                item.tableVar? = some id
                → arranged.vars.node? id = some node
                → query.NodeTable topology.catalog model item id node := by
  have resolving : Step.resolveTables.upTo = Step.moveRestrictions.upTo ++ [.resolveTables] := by
    decide
  have arranging : Step.arrangeJoins.upTo = Step.resolveTables.upTo ++ [.arrangeJoins] := by decide
  have forwarding := (after.arranged arranges).1
  obtain ⟨resolved, resolves, places⟩ := exists_of_runSteps_append (arranging ▸ arranges)
  obtain ⟨moved, moves, looksUp⟩ := exists_of_runSteps_append (resolving ▸ resolves)
  have places : arrangeJoins topology.catalog resolved = .ok arranged := by
    simpa [runSteps, runStep] using places
  have looksUp : resolveTables topology.catalog moved = .ok resolved := by
    simpa [runSteps, runStep] using looksUp
  obtain ⟨-, sameLabels, prepared, -⟩ := after.early (by decide) moves
  obtain ⟨refined, tabled, -⟩ := after.early (by decide) resolves
  exact refined.arrangeJoins_nodes forwarding tabled
    (sameLabels.resolveTables prepared looksUp) places

/-- A table of an arranged scope is that of a variable that its clauses declare. -/
theorem Joined.mem_clauseIds {catalog : Catalog} (joined : query.Joined catalog model scope)
    (member : item ∈ scope.select.items) (isTable : item.tableVar? = some id)
    : id ∈ clauseIds model.clauses := by
  rw [← filterMap_tableVar?_sources query scope.index]
  refine List.mem_filterMap.mpr ⟨item.bare, ?_, isTable⟩
  exact joined.perm.mem_iff.mp (List.mem_map_of_mem member)

end QueryModel

/-- The tables of a lowered query agree with the mappings. Where a node is a table of a scope, the
table is that of its binding, and the labels of the binding include all that the query writes for
the node. They include what each relationship of the scope fixes for the node as one of its ends,
unless the query writes no label for the node and the binding is what the topology has for that.
-/
theorem lower_tables_agree {topology : Topology} {query : Cypher.Query} {lowered : Lowered}
    (succeeded : lower topology.catalog query = .ok lowered)
    : ∃ start written,
        Draft.ofQuery query = .ok start
        ∧ writtenLabels query = .ok written
        ∧ ∀ scope ∈ lowered.tree.scopes,
            ∀ item ∈ scope.select.items,
              ∀ id node,
                item.tableVar? = some id
                → lowered.vars.node? id = some node
                → ∃ binding,
                    node.binding = some binding
                    ∧ item.table = some binding.table
                    ∧ (∀ label, (id, label) ∈ written → label ∈ binding.labels)
                    ∧ ((∀ other ∈ scope.select.items,
                          ∀ relId rel relBinding label,
                            other.tableVar? = some relId
                            → lowered.vars.relationship? relId = some rel
                            → rel.binding = some relBinding
                            → relBinding.Fixes (start.vars.resolve rel.left)
                                (start.vars.resolve rel.right) id label
                            → label ∈ binding.labels)
                        ∨ (∀ label, (id, label) ∉ written)
                          ∧ topology.lookupNode ∅ = .ok binding) := by
  obtain ⟨start, arranged, later, begins, arranges, keeps, sameTree, sameVars⟩ :=
    lower_keepsTables succeeded
  obtain ⟨walk, collected, -, -, startVars⟩ := QueryModel.exists_of_ofQuery begins
  obtain ⟨written, isWritten, labels⟩ := collect_labels collected
  obtain ⟨model, after, -⟩ := (QueryModel.ofQuery_safely query topology.catalog).of_ok begins
  obtain ⟨-, refined, each, -⟩ := after.arranged arranges
  have modelVars : start.vars = model.vars := after.2.2
  rw [← startVars, modelVars] at labels
  refine ⟨start, written, begins, isWritten, ?_⟩
  rw [sameTree, sameVars, modelVars]
  intro scope member item listed id node isTable isNode
  obtain ⟨old, inScopes, tables⟩ := keeps.scopes scope member
  obtain ⟨oldNode, wasNode, -, sameBinding⟩ := keeps.node isNode
  obtain ⟨own, found, nodes⟩ := after.nodeTables arranges old inScopes
  obtain ⟨own', found', joined, -⟩ := each.each old inScopes
  obtain rfl := Option.some.inj (found.symm.trans found')
  obtain ⟨binding, isBound, hasTable, ofQuery, fixed⟩ :=
    (nodes item (tables item listed (by simp [isTable])) id oldNode isTable wasNode).agrees
  refine ⟨binding, sameBinding ▸ isBound, hasTable, ?_, ?_⟩
  · intro label isLabel
    exact ofQuery label ((labels id label).mpr isLabel)
  · apply fixed.imp
    · intro fixed other inOthers relId rel relBinding label isOther isRelationship relBound fixes
      obtain ⟨oldRel, wasRelationship, left, right, wasBound⟩ := keeps.relationship isRelationship
      have inClauses :=
        joined.mem_clauseIds (tables other inOthers (by simp [isOther])) isOther
      -- The relationship is an edge of the scope that was arranged, with the same ends.
      obtain ⟨first, isEdge⟩ := @QueryModel.Refined.isEdge _ _ _ _ _ refined found
        ⟨relId, model.vars.resolve rel.left, model.vars.resolve rel.right, relBinding⟩
          oldRel inClauses
        wasRelationship (wasBound.trans relBound) (by rw [left]) (by rw [right])
      exact fixed first _ label isEdge fixes
    · rintro ⟨none, answer⟩
      refine ⟨fun label isLabel => ?_, answer⟩
      have member := (labels id label).mpr isLabel
      rw [none] at member
      exact NameSet.not_mem_empty label member

/-- A topology of persons who live in cities. -/
def residents : Topology where
  metadata := none
  nodes :=
    [{ labels := .ofList ["Person"], table := "persons", keyColumn := "id", columns := ∅ },
      { labels := .ofList ["City"], table := "cities", keyColumn := "id", columns := ∅ }]
  relationships :=
    [{ type := "LIVES_IN", table := "lives_in", fromLabel := some "Person", toLabel := some "City",
       fromColumn := "src", toColumn := "dst", keyColumn := none, columns := ∅ }]

/-- The query `MATCH (a)-[r]->(b) RETURN a`. -/
def anyHop : Cypher.Query where
  clauses :=
    [.matching
      ⟨false,
        [⟨none, ⟨some "a", [], none⟩,
          [(⟨some "r", .right, [], none, none⟩, ⟨some "b", [], none⟩)]⟩],
        none⟩,
      .returnItems ⟨false, [⟨.var "a", none, "a"⟩], [], none, none⟩]

/-- Witness: a node without labels gets the table of the label that its relationship fixes. -/
theorem residents_tables_agree
    : ∃ (lowered : Lowered) (binding : TableBinding),
        lower residents.catalog anyHop = .ok lowered
        ∧ (∃ item ∈ lowered.tree.root.select.items,
            item.tableVar? = some "a" ∧ item.table = some binding.table)
        ∧ "Person" ∈ binding.labels := by
  have reached : ((Draft.ofQuery anyHop).toOption.any fun start =>
      (lower residents.catalog anyHop).toOption.any fun lowered =>
        decide (∃ item ∈ lowered.tree.root.select.items,
          ∃ other ∈ lowered.tree.root.select.items,
            ∃ node ∈ lowered.vars.node? "a",
              ∃ rel ∈ lowered.vars.relationship? "r",
                ∃ relBinding ∈ rel.binding,
                  item.tableVar? = some "a"
                  ∧ other.tableVar? = some "r"
                  ∧ relBinding.Fixes (start.vars.resolve rel.left)
                    (start.vars.resolve rel.right) "a"
                      "Person")) = true := by
    decide +kernel
  obtain ⟨start, begins, reached⟩ := (Option.any_eq_true _ _).mp reached
  obtain ⟨lowered, succeeded, reached⟩ := (Option.any_eq_true _ _).mp reached
  obtain ⟨item, listed, other, inOthers, node, isNode, rel, isRelationship, relBinding, relBound,
    isTable, isOther, fixes⟩ := of_decide_eq_true reached
  have succeeded := toOption_eq_some.mp succeeded
  obtain ⟨start', written, begins', -, agree⟩ := lower_tables_agree succeeded
  obtain rfl := Except.ok.inj ((toOption_eq_some.mp begins).symm.trans begins')
  obtain ⟨binding, -, hasTable, -, fixed | ⟨-, answer⟩⟩ :=
    agree lowered.tree.root (Tree.mem_scopes.mpr (.inr rfl)) item listed "a" node isTable isNode
  · exact ⟨lowered, binding, succeeded, ⟨item, listed, isTable, hasTable⟩,
      fixed other inOthers "r" rel relBinding "Person" isOther isRelationship relBound fixes⟩
  · have ambiguous : (residents.lookupNode ∅).toOption = none := by decide
    rw [answer] at ambiguous
    cases ambiguous

/-- A topology of persons only, with a relationship between cities and any nodes. -/
def strangers : Topology :=
  { acquaintances with
    relationships :=
      [{ type := "KNOWS", table := "knows", fromLabel := some "City", toLabel := none,
         fromColumn := "src", toColumn := "dst", keyColumn := none, columns := ∅ }] }

/-- Counterexample: a node without labels has the only table of nodes, which lacks the label that
its relationship fixes.
-/
theorem strangers_lack_fixed_label
    : ∃ start lowered,
        Draft.ofQuery anyHop = .ok start
        ∧ lower strangers.catalog anyHop = .ok lowered
        ∧ ∃ scope ∈ lowered.tree.scopes,
            (∃ item ∈ scope.select.items, item.tableVar? = some "a")
            ∧ (∃ node ∈ lowered.vars.node? "a",
                ∃ binding ∈ node.binding, "City" ∉ binding.labels)
            ∧ ∃ other ∈ scope.select.items,
                other.tableVar? = some "r"
                ∧ ∃ rel ∈ lowered.vars.relationship? "r",
                    ∃ relBinding ∈ rel.binding,
                      relBinding.Fixes (start.vars.resolve rel.left) (start.vars.resolve rel.right)
                        "a" "City" := by
  have reached : ((Draft.ofQuery anyHop).toOption.any fun start =>
      (lower strangers.catalog anyHop).toOption.any fun lowered =>
        decide (∃ scope ∈ lowered.tree.scopes,
          (∃ item ∈ scope.select.items, item.tableVar? = some "a")
          ∧ (∃ node ∈ lowered.vars.node? "a",
              ∃ binding ∈ node.binding, "City" ∉ binding.labels)
          ∧ ∃ other ∈ scope.select.items,
              other.tableVar? = some "r"
              ∧ ∃ rel ∈ lowered.vars.relationship? "r",
                  ∃ relBinding ∈ rel.binding,
                    relBinding.Fixes (start.vars.resolve rel.left) (start.vars.resolve rel.right)
                      "a" "City")) = true := by
    decide +kernel
  obtain ⟨start, begins, reached⟩ := (Option.any_eq_true _ _).mp reached
  obtain ⟨lowered, succeeded, lacks⟩ := (Option.any_eq_true _ _).mp reached
  refine ⟨start, lowered, toOption_eq_some.mp begins, toOption_eq_some.mp succeeded, ?_⟩
  exact of_decide_eq_true lacks

end CypherSql.Plan
