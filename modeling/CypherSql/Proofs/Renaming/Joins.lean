import CypherSql.Plan.Exports
import CypherSql.Proofs.Renaming.Sources

/-! The steps from scopes with sources to subqueries with exports, of a query and of the same query
with other names: the places of conditions, tables, joins and exports.
-/

namespace CypherSql.Plan

variable {ρ : Renaming} {allowed : VarId → Prop} {vars other : VarTable}

/-- A node or relationship may be replaced by another one. -/
theorem VarTable.Renamed.redefineElement (renamed : vars.Renamed ρ allowed other) {id : VarId}
    {old definition definitionOther : Definition} (found : vars.definition? id = some old)
    (element : old.isElement) (same : definition.Renamed ρ definitionOther)
    (stays : definition.isElement)
    : (vars.redefine id definition).Renamed ρ allowed (other.redefine (ρ id) definitionOther) := by
  have kinds {definition : Definition} (element : definition.isElement)
      : definition.isTemporary = false ∧ definition.projection? = none := by
    cases definition <;> first | exact ⟨rfl, rfl⟩ | cases element
  refine renamed.redefine found same ?_ ?_
  · rw [(kinds element).1, (kinds stays).1]
  · rw [(kinds element).2, (kinds stays).2]

section Restrictions

variable (ρ) in
theorem conjuncts_option_rename (condition : Option Expr)
    : (condition.map (Expr.rename ρ)).elim [] Expr.conjuncts
      = (condition.elim [] Expr.conjuncts).map (Expr.rename ρ) := by
  cases condition with
  | none => rfl
  | some condition => exact condition.conjuncts_rename ρ

theorem takeRestriction_rename {definition definitionOther : Definition}
    (same : definition.Renamed ρ definitionOther)
    : Option.Rel (fun taken takenOther =>
          takenOther.1 = taken.1.map (Expr.rename ρ)
          ∧ taken.2.Renamed ρ takenOther.2
          ∧ definition.isElement
          ∧ taken.2.isElement)
        (takeRestriction definition) (takeRestriction definitionOther) := by
  cases same with
  | node node => exact .some ⟨rfl, .node { node with restriction := none }, rfl, rfl⟩
  | relationship rel => exact .some ⟨rfl, .relationship { rel with restriction := none }, rfl, rfl⟩
  | _ => exact .none

/-- Conditions on the variables of tables are moved alike, by induction over the items. -/
theorem moveItemRestrictions_rename (renamed : vars.Renamed ρ allowed other) (items : List FromItem)
    : SameOutcome
        (Both (ImageOf (List.map (FromItem.rename ρ)))
          (Both (ImageOf (List.map (Expr.rename ρ))) (VarTable.Renamed ρ allowed)))
        (moveItemRestrictions items vars)
        (moveItemRestrictions (items.map (FromItem.rename ρ)) other) := by
  induction items generalizing vars other with
  | nil => exact .ok ⟨rfl, rfl, renamed⟩
  | cons item rest ih =>
      simp only [List.map_cons, moveItemRestrictions, FromItem.tableVar?_rename]
      cases item.tableVar? with
      | none =>
          refine (ih renamed).bind ?_
          rintro ⟨items, moved, vars⟩ ⟨_, _, other⟩ ⟨rfl, rfl, renamed⟩
          exact .ok ⟨rfl, rfl, renamed⟩
      | some id =>
          simp only [Option.map_some]
          rcases rel_cases (renamed.definition? id) with
            ⟨missing, gone⟩ | ⟨definition, definitionOther, found, there, same⟩
          · simp only [missing, gone, Option.bind_none]
            exact .fail rfl
          simp only [found, there, Option.bind_some]
          rcases rel_cases (takeRestriction_rename same) with
            ⟨none, noneOther⟩ | ⟨⟨restriction, definition⟩, ⟨_, _⟩, taken, takenOther, rfl, same,
              element, stays⟩
          · simp only [none, noneOther]
            exact .fail rfl
          · simp only [taken, takenOther, conjuncts_option_rename]
            refine (ih ((renamed.redefineElement found element same stays).refresh id)).bind ?_
            rintro ⟨items, moved, vars⟩ ⟨_, _, other⟩ ⟨rfl, rfl, renamed⟩
            have optional : (item.rename ρ).optional = item.optional := rfl
            rw [optional]
            split
            · refine .ok ⟨?_, rfl, renamed⟩
              simp [ImageOf, FromItem.rename]
            · refine .ok ⟨rfl, ?_, renamed⟩
              simp [ImageOf]

variable (ρ)

theorem addPendingFirst?_rename (clause : Nat) (conditions : List Expr) (items : List FromItem)
    : addPendingFirst? clause (conditions.map (Expr.rename ρ)) (items.map (FromItem.rename ρ))
      = (addPendingFirst? clause conditions items).map (List.map (FromItem.rename ρ)) := by
  induction items with
  | nil => rfl
  | cons item rest ih =>
      have number : (item.rename ρ).clause = item.clause := rfl
      simp only [List.map_cons, addPendingFirst?, number, ih]
      split
      · simp [FromItem.rename]
      · simp [Option.map_map, Function.comp_def]

theorem addPending?_rename (clause : Nat) (conditions : List Expr) (items : List FromItem)
    : addPending? clause (conditions.map (Expr.rename ρ)) (items.map (FromItem.rename ρ))
      = (addPending? clause conditions items).map (List.map (FromItem.rename ρ)) := by
  rw [addPending?, ← List.map_reverse, addPendingFirst?_rename, addPending?, Option.map_map,
    Option.map_map]
  exact congrArg (Option.map · _) (funext fun items => List.map_reverse.symm)

/-- What is left of clauses, with their items and conditions, under the new ids. -/
def renameMoved
    : List ReadingClause × List FromItem × List Expr
      → List ReadingClause × List FromItem × List Expr
  | (clauses, items, moved) =>
      (clauses.map (ReadingClause.rename ρ), items.map (FromItem.rename ρ),
        moved.map (Expr.rename ρ))

/-- Conditions of clauses are moved alike, by induction over the clauses. -/
theorem moveClauseConditions_rename (scope : Nat) (clauses : List (ReadingClause × Nat))
    (items : List FromItem)
    : SameOutcome (ImageOf (renameMoved ρ)) (moveClauseConditions scope clauses items)
        (moveClauseConditions scope (clauses.map fun (clause, index) => (clause.rename ρ, index))
          (items.map (FromItem.rename ρ))) := by
  induction clauses generalizing items with
  | nil => exact .ok rfl
  | cons clause rest ih =>
      obtain ⟨⟨optional, ids, relationships, condition⟩, index⟩ := clause
      cases condition with
      | none => exact (ih items).bind_image fun moved => .ok rfl
      | some condition =>
          simp only [List.map_cons, moveClauseConditions, ReadingClause.rename, Option.map_some,
            Expr.conjuncts_rename, addPending?_rename]
          cases optional with
          | true =>
              cases addPending? index condition.conjuncts items with
              | none => exact .fail rfl
              | some items => exact (ih items).bind_image fun moved => .ok rfl
          | false =>
              refine (ih items).bind_image fun moved => .ok ?_
              simp [ImageOf, renameMoved, ReadingClause.rename]

end Restrictions

theorem moveInScope_rename (scope : Scope) (renamed : vars.Renamed ρ allowed other)
    : SameOutcome (Both (ImageOf (Scope.rename ρ)) (VarTable.Renamed ρ allowed))
      (moveInScope scope vars)
        (moveInScope (scope.rename ρ) other) := by
  have clauses : (scope.rename ρ).clauses.zipIdx
      = scope.clauses.zipIdx.map fun (clause, index) => (clause.rename ρ, index) := by
    rw [Scope.rename, List.zipIdx_map]
    rfl
  unfold moveInScope
  refine (moveItemRestrictions_rename renamed scope.select.fromItems).bind ?_
  rintro ⟨items, moved, vars⟩ ⟨_, _, other⟩ ⟨rfl, rfl, renamed⟩
  rw [clauses]
  refine (moveClauseConditions_rename ρ scope.index scope.clauses.zipIdx items).bind_image
    fun rest => ?_
  refine .ok ⟨?_, renamed⟩
  simp [ImageOf, Scope.rename, Select.rename]

theorem moveRestrictions_rename {draft draftOther : Draft}
    (renamed : draft.Renamed ρ allowed draftOther)
    : SameOutcome (Draft.Renamed ρ allowed) (moveRestrictions draft)
      (moveRestrictions draftOther) :=
  renamed.eachScope fun scope _ _ renamed => moveInScope_rename scope renamed

section Tables

variable (catalog : Catalog)

theorem endpointLabels_rename (renamed : vars.Renamed ρ allowed other) (endpoint : VarId)
    : endpointLabels other (ρ endpoint) = endpointLabels vars endpoint := by
  rw [endpointLabels, endpointLabels, renamed.resolve_eq, renamed.node?_eq]
  cases vars.node? (vars.resolve endpoint) <;> rfl

/-- The same table is found, with definitions of a node or relationship that correspond. -/
def SameTable (ρ : Renaming) (found other : String × Definition) : Prop :=
  other.1 = found.1 ∧ found.2.Renamed ρ other.2 ∧ found.2.isElement

theorem nodeTable_rename (name nameOther : String) (node : NodeVar)
    : SameOutcome (Option.Rel (SameTable ρ)) (nodeTable catalog name node)
        (nodeTable catalog nameOther (node.rename ρ)) := by
  have labels : (node.rename ρ).labels = node.labels := rfl
  unfold nodeTable
  rw [labels]
  rcases catalog.node node.labels with source | binding
  · cases source <;> first | exact .ok .none | exact .fail rfl
  · exact .ok (.some ⟨rfl, .node { node with binding := some binding }, rfl⟩)

theorem relationshipTable_rename (renamed : vars.Renamed ρ allowed other) (name nameOther : String)
    (rel : RelationshipVar)
    : SameOutcome (Option.Rel (SameTable ρ)) (relationshipTable catalog vars name rel)
        (relationshipTable catalog other nameOther (rel.rename ρ)) := by
  have left : endpointLabels other (rel.rename ρ).left = endpointLabels vars rel.left :=
    endpointLabels_rename renamed rel.left
  have right : endpointLabels other (rel.rename ρ).right = endpointLabels vars rel.right :=
    endpointLabels_rename renamed rel.right
  have types : (rel.rename ρ).types = rel.types := rfl
  have direction : (rel.rename ρ).direction = rel.direction := rfl
  simp only [relationshipTable, left, right, types, direction]
  rcases catalog.relationship rel.types (endpointLabels vars rel.left)
    (endpointLabels vars rel.right)
    rel.direction with source | binding
  · cases source with
    | ambiguousRelationship =>
        dsimp only
        split
        · exact .fail rfl
        · exact .fail rfl
    | _ => exact .fail rfl
  · exact .ok (.some ⟨rfl, .relationship { rel with binding := some binding }, rfl⟩)

theorem tableOf_rename (renamed : vars.Renamed ρ allowed other) (id : VarId)
    : SameOutcome (Option.Rel (SameTable ρ)) (tableOf catalog vars id)
      (tableOf catalog other (ρ id)) := by
  rcases rel_cases (renamed.get? id) with ⟨missing, gone⟩ | ⟨var, new, found, there, same⟩
  · simp only [tableOf, missing, gone]
    exact .fail rfl
  · obtain ⟨_, _, _, definition⟩ := var
    obtain ⟨_, _, _, definitionOther⟩ := new
    simp only [tableOf, found, there]
    cases same.definition with
    | node node => exact nodeTable_rename catalog _ _ node
    | relationship rel => exact relationshipTable_rename catalog renamed _ _ rel
    | _ => exact .fail rfl

/-- A variable whose table is found is a node or relationship. -/
theorem isElement_of_tableOf {id : VarId} {found : String × Definition}
    (succeeded : tableOf catalog vars id = .ok (some found))
    : ∃ old, vars.definition? id = some old ∧ old.isElement = true := by
  unfold tableOf at succeeded
  cases present : vars.get? id with
  | none =>
      rw [present] at succeeded
      cases succeeded
  | some var =>
      refine ⟨var.definition, VarTable.definition?_of_get? present, ?_⟩
      simp only [present] at succeeded
      cases kind : var.definition with
      | node node => rfl
      | relationship rel => rfl
      | _ =>
          rw [kind] at succeeded
          cases succeeded

/-- An item and the variables after a change of it, and the same under the new ids. -/
abbrev SameItem (ρ : Renaming) (allowed : VarId → Prop)
    : FromItem × VarTable → FromItem × VarTable → Prop :=
  Both (ImageOf (FromItem.rename ρ)) (VarTable.Renamed ρ allowed)

theorem resolveItem_rename (item : FromItem) (renamed : vars.Renamed ρ allowed other)
    : SameOutcome (SameItem ρ allowed) (resolveItem catalog item vars)
        (resolveItem catalog (item.rename ρ) other) := by
  have table : (item.rename ρ).table = item.table := rfl
  unfold resolveItem
  rw [table, FromItem.tableVar?_rename]
  cases item.table with
  | some table => exact .ok ⟨rfl, renamed⟩
  | none =>
      cases item.tableVar? with
      | none => exact .ok ⟨rfl, renamed⟩
      | some id =>
          have tables := tableOf_rename catalog renamed id
          simp only [Option.map_some]
          generalize tableOf catalog other (ρ id) = resultOther at tables ⊢
          generalize sought : tableOf catalog vars id = result at tables ⊢
          cases tables with
          | error same => exact .error same
          | ok holds =>
              cases holds with
              | none => exact .ok ⟨rfl, renamed⟩
              | @some found foundOther same =>
                  obtain ⟨table, definition⟩ := found
                  obtain ⟨_, definitionOther⟩ := foundOther
                  obtain ⟨rfl, same, stays⟩ := same
                  obtain ⟨old, present, element⟩ := isElement_of_tableOf catalog sought
                  exact .ok ⟨rfl, renamed.redefineElement present element same stays⟩

/-- Changes of items that agree agree on lists of items, by induction over them. -/
theorem eachItem_rename {f g : FromItem → VarTable → Except LoweringError (FromItem × VarTable)}
    (each
      : ∀ item vars other,
          vars.Renamed ρ allowed other
          → SameOutcome (SameItem ρ allowed) (f item vars) (g (item.rename ρ) other))
    (items : List FromItem) (renamed : vars.Renamed ρ allowed other)
    : SameOutcome (Both (ImageOf (List.map (FromItem.rename ρ))) (VarTable.Renamed ρ allowed))
        (eachItem f items vars) (eachItem g (items.map (FromItem.rename ρ)) other) := by
  induction items generalizing vars other with
  | nil => exact .ok ⟨rfl, renamed⟩
  | cons item rest ih =>
      refine (each item vars other renamed).bind ?_
      rintro ⟨item, vars⟩ ⟨_, other⟩ ⟨rfl, renamed⟩
      refine (ih renamed).bind ?_
      rintro ⟨items, vars⟩ ⟨_, other⟩ ⟨rfl, renamed⟩
      exact .ok ⟨rfl, renamed⟩

theorem eachFromItem_rename {f g : FromItem → VarTable → Except LoweringError (FromItem × VarTable)}
    (each
      : ∀ item vars other,
          vars.Renamed ρ allowed other
          → SameOutcome (SameItem ρ allowed) (f item vars) (g (item.rename ρ) other))
    (scope : Scope) (renamed : vars.Renamed ρ allowed other)
    : SameOutcome (Both (ImageOf (Scope.rename ρ)) (VarTable.Renamed ρ allowed))
        (eachFromItem f scope vars) (eachFromItem g (scope.rename ρ) other) := by
  refine (eachItem_rename each scope.select.fromItems renamed).bind ?_
  rintro ⟨items, vars⟩ ⟨_, other⟩ ⟨rfl, renamed⟩
  exact .ok ⟨rfl, renamed⟩

theorem resolveTables_rename {draft draftOther : Draft}
    (renamed : draft.Renamed ρ allowed draftOther)
    : SameOutcome (Draft.Renamed ρ allowed) (resolveTables catalog draft)
        (resolveTables catalog draftOther) :=
  renamed.eachScope fun scope _ _ renamed =>
    eachFromItem_rename (fun item _ _ renamed => resolveItem_rename catalog item renamed)
      scope renamed

end Tables

section Edges

theorem relationshipItems_rename (renamed : vars.Renamed ρ allowed other) (items : List FromItem)
    : relationshipItems other (items.map (FromItem.rename ρ))
      = (relationshipItems vars items).map ρ := by
  have relationship : (fun id => (other.relationship? id).isSome) ∘ ρ
      = fun id => (vars.relationship? id).isSome := by
    funext id
    simp only [Function.comp, renamed.relationship?_eq, Option.isSome_map]
  rw [relationshipItems, filterMap_image (FromItem.tableVar?_rename ρ),
    List.filter_map, relationship]
  rfl

theorem fixedLabels_rename (renamed : vars.Renamed ρ allowed other) (node relationship : VarId)
    : fixedLabels other (ρ node) (ρ relationship) = fixedLabels vars node relationship := by
  simp only [fixedLabels, renamed.relationship?_eq]
  cases vars.relationship? relationship with
  | none => rfl
  | some rel =>
      obtain ⟨left, right, direction, types, restriction, required, binding⟩ := rel
      cases binding with
      | none => rfl
      | some binding =>
          simp only [Option.map_some, RelationshipVar.rename, renamed.resolve_eq, ρ.eq_iff]

theorem narrowItem_rename (catalog : Catalog) (relationships : List VarId) (item : FromItem)
    (renamed : vars.Renamed ρ allowed other)
    : SameOutcome (SameItem ρ allowed) (narrowItem catalog relationships item vars)
        (narrowItem catalog (relationships.map ρ) (item.rename ρ) other) := by
  have table : (item.rename ρ).table = item.table := rfl
  unfold narrowItem
  rw [table, FromItem.tableVar?_rename]
  cases item.table with
  | some table => exact .ok ⟨rfl, renamed⟩
  | none =>
      cases item.tableVar? with
      | none => exact .ok ⟨rfl, renamed⟩
      | some id =>
          simp only [Option.map_some]
          rcases rel_cases (renamed.get? id) with ⟨missing, gone⟩ | ⟨var, new, found, there, same⟩
          · simp only [missing, gone]
            exact .ok ⟨rfl, renamed⟩
          obtain ⟨_, _, _, definition⟩ := var
          obtain ⟨_, _, _, definitionOther⟩ := new
          have own := VarTable.definition?_of_get? found
          simp only [found, there]
          cases same.definition with
          | node node =>
              have labels : (relationships.map ρ).flatMap (fixedLabels other (ρ id))
                  = relationships.flatMap (fixedLabels vars id) := by
                rw [List.flatMap_map]
                exact congrArg (List.flatMap · relationships)
                  (funext (fixedLabels_rename renamed id))
              have old : (node.rename ρ).labels = node.labels := rfl
              simp only [labels, old]
              cases catalog.node
                (node.labels.insertAll (relationships.flatMap (fixedLabels vars id))) with
              | error source => exact .fail rfl
              | ok binding =>
                  exact .ok ⟨rfl, renamed.redefineElement own rfl (.node { node with
                    labels := node.labels.insertAll (relationships.flatMap (fixedLabels vars id))
                    binding := some binding }) rfl⟩
          | _ => exact .ok ⟨rfl, renamed⟩

/-- The relationship with each variable under its new id. -/
def Edge.rename (ρ : Renaming) (edge : Edge) : Edge where
  relationship := ρ edge.relationship
  left := ρ edge.left
  right := ρ edge.right
  binding := edge.binding

/-- Relationships are found alike, by induction over the items. -/
theorem edgesOf_rename (renamed : vars.Renamed ρ allowed other) (items : List FromItem)
    : SameOutcome (ImageOf (List.map (Edge.rename ρ))) (edgesOf vars items)
        (edgesOf other (items.map (FromItem.rename ρ))) := by
  induction items with
  | nil => exact .ok rfl
  | cons item rest ih =>
      simp only [List.map_cons, edgesOf, FromItem.tableVar?_rename]
      cases item.tableVar? with
      | none => exact ih
      | some id =>
          simp only [Option.map_some, Option.bind_some, renamed.relationship?_eq]
          cases vars.relationship? id with
          | none => exact ih
          | some rel =>
              obtain ⟨left, right, direction, types, restriction, required, binding⟩ := rel
              cases binding with
              | none => exact .fail rfl
              | some binding =>
                  simp only [Option.map_some, RelationshipVar.rename, renamed.resolve_eq]
                  exact ih.bind_image fun edges => .ok rfl

/-- The conditions of a relationship under new ids are those of the relationship under them. -/
theorem Edge.conditions_rename {placed placedOther : NameSet} (same : placed.Renamed ρ placedOther)
    (edge : Edge) (new : List VarId)
    : (edge.rename ρ).conditions placedOther (new.map ρ)
      = (edge.conditions placed new).map (Expr.rename ρ) := by
  have isPlaced (id : VarId) : ρ id ∈ placedOther ↔ id ∈ placed := same id
  have columns : (edge.rename ρ).columns? = edge.columns? := rfl
  simp only [Edge.conditions, columns]
  simp only [Edge.rename, isPlaced, List.mem_map_of_injective ρ.injective]
  split
  · rfl
  · cases edge.columns? with
    | some columns =>
        dsimp only
        rw [List.map_append]
        congr 1
        · split <;> rfl
        · split <;> rfl
    | none =>
        dsimp only
        split
        · generalize (decide (edge.left ∈ placed) || decide (edge.left ∈ new)) = left
          generalize (decide (edge.right ∈ placed) || decide (edge.right ∈ new)) = right
          cases left <;> cases right <;> rfl
        · rfl

end Edges

namespace Layout

/-- The items that are placed are those of another layout with each variable under its new id. -/
structure Renamed (ρ : Renaming) (layout other : Layout) : Prop where
  placed : layout.placed.Renamed ρ other.placed
  fromItems : other.fromItems = layout.fromItems.map (FromItem.rename ρ)
  joins : other.joins = layout.joins.map (Join.rename ρ)

namespace Renamed

variable {layout other : Layout} {edges : List Edge}

theorem empty : Renamed ρ .empty .empty :=
  ⟨.empty, rfl, rfl⟩

theorem isEmpty_eq (renamed : layout.Renamed ρ other) : other.isEmpty = layout.isEmpty := by
  simp only [Layout.isEmpty, renamed.fromItems, renamed.joins, List.isEmpty_map]

theorem edgeConditions_eq (renamed : layout.Renamed ρ other) (item : FromItem)
    : other.edgeConditions (edges.map (Edge.rename ρ)) (item.rename ρ)
      = (layout.edgeConditions edges item).map (Expr.rename ρ) := by
  rw [edgeConditions, List.flatMap_map, edgeConditions, List.map_flatMap]
  exact congrArg (List.flatMap · edges)
    (funext fun edge => edge.conditions_rename renamed.placed item.ids)

theorem mark (renamed : layout.Renamed ρ other) (item : FromItem)
    : (layout.mark item).Renamed ρ (other.mark (item.rename ρ)) :=
  { renamed with placed := renamed.placed.insertAll item.ids }

theorem nextIndex_eq (renamed : layout.Renamed ρ other) (waiting : List FromItem)
    : other.nextIndex (edges.map (Edge.rename ρ)) (waiting.map (FromItem.rename ρ))
      = layout.nextIndex edges waiting := by
  simp only [nextIndex, List.findIdx?_map, Function.comp_def, renamed.edgeConditions_eq,
    List.isEmpty_map]

theorem join (renamed : layout.Renamed ρ other) (outer : Bool) (item : FromItem) (condition : Expr)
    : Renamed ρ { layout.mark item with joins := layout.joins ++ [{ outer, item, condition }] }
        { other.mark (item.rename ρ) with
          joins := other.joins ++ [
            { outer, item := item.rename ρ, condition := condition.rename ρ }] } := by
  refine { renamed.mark item with fromItems := renamed.fromItems, joins := ?_ }
  simp only [renamed.joins, List.map_append, List.map_cons, List.map_nil]
  rfl

theorem placeRequired (renamed : layout.Renamed ρ other) (item : FromItem)
    : (layout.placeRequired edges item).Renamed ρ
        (other.placeRequired (edges.map (Edge.rename ρ)) (item.rename ρ)) := by
  have marked := renamed.mark item
  simp only [Layout.placeRequired, renamed.edgeConditions_eq, Expr.conjoin_rename]
  cases Expr.conjoin (layout.edgeConditions edges item) with
  | none =>
      refine { marked with fromItems := ?_ }
      simp only [Option.map_none, renamed.fromItems, List.map_append, List.map_cons, List.map_nil]
  | some condition =>
      have noItems : other.fromItems.isEmpty = layout.fromItems.isEmpty := by
        rw [renamed.fromItems, List.isEmpty_map]
      simp only [Option.map_some, noItems]
      split
      · exact { marked with fromItems := rfl }
      · exact renamed.join false item condition

/-- Required items are placed alike, by induction over their number. -/
theorem placeAllRequired (renamed : layout.Renamed ρ other) (times : Nat) (waiting : List FromItem)
    : SameOutcome (Renamed ρ) (Layout.placeAllRequired edges times layout waiting)
        (Layout.placeAllRequired (edges.map (Edge.rename ρ)) times other
          (waiting.map (FromItem.rename ρ))) := by
  induction times generalizing layout other waiting with
  | zero => exact .ok renamed
  | succ times ih =>
      simp only [Layout.placeAllRequired, renamed.isEmpty_eq, renamed.nextIndex_eq,
        List.getElem?_map]
      cases waiting[if layout.isEmpty then 0 else layout.nextIndex edges waiting]? with
      | none => exact .ok renamed
      | some item =>
          simp only [Option.map_some, FromItem.rename, List.isEmpty_map]
          split
          · rw [List.eraseIdx_map]
            exact ih (renamed.placeRequired item) _
          · exact .fail rfl

theorem canCheck_eq (renamed : layout.Renamed ρ other) {vars varsOther : VarTable}
    (same : vars.Renamed ρ allowed varsOther) {waiting waitingOther : NameSet}
    (waits : waiting.Renamed ρ waitingOther) (condition : Expr)
    : other.canCheck varsOther waitingOther (condition.rename ρ)
      = layout.canCheck vars waiting condition := by
  refine (condition.references_rename ρ).all fun id => ?_
  simp only [same.resolve_eq, waits (vars.resolve id), renamed.placed (vars.resolve id)]

/-- Optional items are placed alike, by induction over their number. -/
theorem placeAllOptional (renamed : layout.Renamed ρ other) {vars varsOther : VarTable}
    (same : vars.Renamed ρ allowed varsOther) (times : Nat) (waiting : List FromItem)
    {unplaced unplacedOther : NameSet} (waits : unplaced.Renamed ρ unplacedOther)
    (conditions : List Expr)
    : (Layout.placeAllOptional edges vars times layout waiting unplaced conditions).Renamed ρ
        (Layout.placeAllOptional (edges.map (Edge.rename ρ)) varsOther times other
          (waiting.map (FromItem.rename ρ)) unplacedOther (conditions.map (Expr.rename ρ))) := by
  induction times generalizing layout other waiting unplaced unplacedOther conditions with
  | zero => exact renamed
  | succ times ih =>
      simp only [Layout.placeAllOptional, renamed.nextIndex_eq, List.getElem?_map]
      cases waiting[layout.nextIndex edges waiting]? with
      | none => exact renamed
      | some item =>
          have marked := renamed.mark item
          have erased := waits.foldl_erase item.ids
          have parted := partition_image (marked.canCheck_eq same erased) conditions
          have ids : (item.rename ρ).ids = item.ids.map ρ := rfl
          simp only [Option.map_some, ids, parted, renamed.edgeConditions_eq, List.eraseIdx_map,
            List.isEmpty_map]
          generalize conditions.partition _ = split
          have ready
              : (if (waiting.eraseIdx (layout.nextIndex edges waiting)).isEmpty
                  then split.1.map (Expr.rename ρ) ++ split.2.map (Expr.rename ρ)
                  else split.1.map (Expr.rename ρ))
                = (if (waiting.eraseIdx (layout.nextIndex edges waiting)).isEmpty then split.1
                  ++ split.2
                  else split.1).map (Expr.rename ρ) := by
            split
            · rw [List.map_append]
            · rfl
          have condition (conditions : List Expr)
              : ((Expr.conjoin (conditions.map (Expr.rename ρ))).getD (.literal (.boolean true)))
                = ((Expr.conjoin conditions).getD (.literal (.boolean true))).rename ρ := by
            rw [Expr.conjoin_rename]
            cases Expr.conjoin conditions <;> rfl
          rw [ready, ← List.map_append, condition]
          exact ih (renamed.join true item _) _ erased split.2

theorem placeOptional (renamed : layout.Renamed ρ other) {vars varsOther : VarTable}
    (same : vars.Renamed ρ allowed varsOther) (items : List FromItem)
    : SameOutcome (Renamed ρ) (layout.placeOptional edges vars items)
        (other.placeOptional (edges.map (Edge.rename ρ)) varsOther
          (items.map (FromItem.rename ρ))) := by
  unfold Layout.placeOptional
  rw [renamed.isEmpty_eq]
  split
  · exact .fail rfl
  · have waiting : ((items.map (FromItem.rename ρ)).map fun item => { item with pending := [] })
        = (items.map fun item => { item with pending := [] }).map (FromItem.rename ρ) := by
      simp [FromItem.rename]
    have ids : (items.map (FromItem.rename ρ)).flatMap (·.ids) = (items.flatMap (·.ids)).map ρ := by
      rw [List.flatMap_map, List.map_flatMap]
      rfl
    have pending : (items.map (FromItem.rename ρ)).flatMap (·.pending)
        = (items.flatMap (·.pending)).map (Expr.rename ρ) := by
      rw [List.flatMap_map, List.map_flatMap]
      rfl
    simp only [waiting, ids, pending, List.length_map]
    exact .ok (renamed.placeAllOptional same _ _ (.ofList _) _)

end Renamed

end Layout

section Arrangement

variable (ρ) in
theorem groupByClause_rename (items : List FromItem)
    : groupByClause (items.map (FromItem.rename ρ))
      = (groupByClause items).map (List.map (FromItem.rename ρ)) := by
  have number : FromItem.clauseNumber ∘ FromItem.rename ρ = FromItem.clauseNumber := rfl
  have group (clause : Nat)
      : (items.map (FromItem.rename ρ)).filter (fun item => item.clauseNumber = clause)
        = (items.filter fun item => item.clauseNumber = clause).map (FromItem.rename ρ) :=
    List.filter_map
  have filled : (fun group : List FromItem => !group.isEmpty) ∘ List.map (FromItem.rename ρ)
      = fun group => !group.isEmpty := by
    funext group
    simp only [Function.comp, List.isEmpty_map]
  have groups (clauses : List Nat)
      : (clauses.map fun clause =>
          (items.filter fun item => item.clauseNumber = clause).map (FromItem.rename ρ))
        = (clauses.map fun clause => items.filter fun item => item.clauseNumber = clause).map
            (List.map (FromItem.rename ρ)) := by
    rw [List.map_map]
    rfl
  simp only [groupByClause, group, List.map_map]
  rw [number, groups, List.filter_map, filled]

theorem arrange_rename (renamed : vars.Renamed ρ allowed other) (items : List FromItem)
    : SameOutcome (Layout.Renamed ρ) (arrange vars items)
      (arrange other (items.map (FromItem.rename ρ))) := by
  have parted := partition_image (f := FromItem.rename ρ) (p := fun item => !item.optional)
    (q := fun item => !item.optional) (fun _ => rfl) items
  unfold arrange
  refine (edgesOf_rename renamed items).bind_image fun edges => ?_
  rw [parted]
  generalize items.partition _ = split
  obtain ⟨required, optional⟩ := split
  simp only [List.length_map]
  refine (Layout.Renamed.empty.placeAllRequired required.length required).bind
    fun layout _ renamed' => ?_
  rw [groupByClause_rename]
  exact SameOutcome.foldlM (List.map (FromItem.rename ρ)) _ renamed' fun _ _ items renamed' =>
    renamed'.placeOptional renamed items

theorem arrangeScope_rename (catalog : Catalog) (scope : Scope)
    (renamed : vars.Renamed ρ allowed other)
    : SameOutcome (Both (ImageOf (Scope.rename ρ)) (VarTable.Renamed ρ allowed))
        (arrangeScope catalog scope vars) (arrangeScope catalog (scope.rename ρ) other) := by
  have joins : (scope.rename ρ).select.joins.isEmpty = scope.select.joins.isEmpty :=
    List.isEmpty_map
  have items : (scope.rename ρ).select.fromItems
    = scope.select.fromItems.map (FromItem.rename ρ) := rfl
  unfold arrangeScope
  rw [joins]
  split
  · exact .fail rfl
  · rw [items, relationshipItems_rename renamed]
    refine (eachFromItem_rename (fun item _ _ renamed =>
      narrowItem_rename catalog _ item renamed) scope renamed).bind ?_
    rintro ⟨scope, vars⟩ ⟨_, other⟩ ⟨rfl, renamed⟩
    refine (arrange_rename renamed scope.select.fromItems).bind fun layout layoutOther same => ?_
    have select : { (scope.rename ρ).select with
          fromItems := layoutOther.fromItems, joins := layoutOther.joins : Select }
        = ({ scope.select with
              fromItems := layout.fromItems
              joins := layout.joins } : Select).rename ρ := by
      rw [same.fromItems, same.joins]
      rfl
    have fault (items : List FromItem)
        : ((items.map (FromItem.rename ρ)).findSome? (·.fault? true)).isSome
          = (items.findSome? (·.fault? true)).isSome := by
      rw [Bool.eq_iff_iff, List.isSome_findSome?, List.isSome_findSome?, List.any_map]
      exact iff_of_eq (congrArg (items.any · = true) (funext fun item => item.fault?_rename ρ true))
    simp only [select, Select.items_rename]
    rcases rel_cases (rel_of_isSome (fault ({ scope.select with
      fromItems := layout.fromItems, joins := layout.joins } : Select).items)) with
      ⟨missing, gone⟩ | ⟨_, _, found, there, -⟩
    · simp only [missing, gone]
      exact .ok ⟨rfl, renamed⟩
    · simp only [found, there]
      exact .fail rfl

theorem arrangeJoins_rename (catalog : Catalog) {draft draftOther : Draft}
    (renamed : draft.Renamed ρ allowed draftOther)
    : SameOutcome (Draft.Renamed ρ allowed) (arrangeJoins catalog draft)
        (arrangeJoins catalog draftOther) :=
  renamed.eachScope fun scope _ _ renamed => arrangeScope_rename catalog scope renamed

end Arrangement

section Exports

theorem exportsOf_rename (renamed : vars.Renamed ρ allowed other) (id : VarId)
    : SameOutcome (ImageOf (List.map (Export.rename ρ))) (exportsOf vars id)
      (exportsOf other (ρ id)) := by
  rcases rel_cases (renamed.definition? id)
    with ⟨missing, gone⟩ | ⟨definition, new, found, there, same⟩
  · simp only [exportsOf, missing, gone]
    exact .fail rfl
  · simp only [exportsOf, found, there, renamed.type?_eq]
    cases same with
    | path hops elements =>
        refine .ok ?_
        simp [ImageOf, Export.rename]
    | _ =>
        rcases vars.type? id with _ | _ | _ | _ | _ <;> first | exact .ok rfl | exact .fail rfl

theorem addNewExports_rename (seen new : List Export)
    : addNewExports (seen.map (Export.rename ρ)) (new.map (Export.rename ρ))
      = (addNewExports seen new).map (Export.rename ρ) := by
  unfold addNewExports
  induction new generalizing seen with
  | nil => rfl
  | cons item rest ih =>
      simp only [List.map_cons, List.foldl_cons,
        List.mem_map_of_injective (Export.rename_injective ρ)]
      split
      · exact ih seen
      · rw [← ih (seen ++ [item]), List.map_append, List.map_cons, List.map_nil]

theorem subqueryExports_rename (renamed : vars.Renamed ρ allowed other) (subquery : Subquery)
    : SameOutcome (ImageOf (Subquery.rename ρ)) (subqueryExports vars subquery)
        (subqueryExports other (subquery.rename ρ)) := by
  have exports : (subquery.rename ρ).exports.isEmpty = subquery.exports.isEmpty := List.isEmpty_map
  unfold subqueryExports
  rw [exports]
  split
  · exact .fail rfl
  · refine (projected_rename .findExports renamed subquery.scope).bind_image fun ids => ?_
    refine (SameOutcome.relator.mapM ρ (List.map (Export.rename ρ)) fun id _ => ?_).bind_image
      fun exports => .ok ?_
    · exact exportsOf_rename renamed id
    · have new := addNewExports_rename (ρ := ρ) [] exports.flatten
      rw [List.map_flatten] at new
      exact congrArg (Subquery.mk subquery.name (subquery.scope.rename ρ)) new

theorem findExports_rename {draft draftOther : Draft} (renamed : draft.Renamed ρ allowed draftOther)
    : SameOutcome (Draft.Renamed ρ allowed) (findExports draft) (findExports draftOther) := by
  unfold findExports
  rw [renamed.tree]
  refine (SameOutcome.relator.mapM (Subquery.rename ρ) (Subquery.rename ρ) fun subquery _ =>
    ?_).bind_image
    fun subqueries => .ok { renamed with tree := rfl }
  exact subqueryExports_rename renamed.vars subquery

end Exports

end CypherSql.Plan
