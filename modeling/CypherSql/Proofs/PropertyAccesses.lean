import CypherSql.Proofs.Rendering.Accesses
import CypherSql.Proofs.SubqueryColumns

/-! What becomes of the properties that a query reads. A property of anything but a variable is
refused. One of a variable that a source supplies is written as a column, which the source has
exactly if the variable is a node or relationship: nothing checks that a path or a value has
properties.
-/

namespace CypherSql.Plan

/-- The source has a column for a property of a variable: a table has those of its variable, a
subquery those that it selects.
-/
inductive Tree.Provides (vars : VarTable) (tree : Tree) (id : VarId) (key : String)
    (item : FromItem)
    : Sql.Expr → Prop where
  | table {columns} (noSource : item.source = none) (found : Sql.tableColumns vars id = .ok columns)
    : Provides vars tree id key item (.column id (columnFor columns.2 key))
  | subquery {source subquery name} (isSource : item.source = some source)
    (found : tree.subqueries[source]? = some subquery) (named : subquery.name = some name)
    (selected : .property id key ∈ subquery.columns vars)
    : Provides vars tree id key item (.column name (Sql.propertyColumn id key))

theorem VarTable.isElement_of_tableColumns {vars : VarTable} {id : VarId}
    {columns : String × NameMap String} (found : Sql.tableColumns vars id = .ok columns)
    : vars.IsElement id := by
  unfold Sql.tableColumns at found
  split at found
  · rename_i definition
    exact ⟨_, definition, rfl⟩
  · rename_i definition
    exact ⟨_, definition, rfl⟩
  · cases found

/-- Only nodes and relationships have columns for properties. -/
theorem Tree.Provides.isElement {vars : VarTable} {tree : Tree} {id : VarId} {key : String}
    {item : FromItem} {column : Sql.Expr} (provides : tree.Provides vars id key item column)
    : vars.IsElement id := by
  cases provides with
  | table _ found => exact VarTable.isElement_of_tableColumns found
  | subquery _ _ _ selected =>
      obtain ⟨-, isRead⟩ := Subquery.property_mem_columns.mp selected
      obtain ⟨outermost, required, -⟩ := VarTable.mem_readAfter.mp isRead
      exact VarTable.isElement_of_required required

end CypherSql.Plan

namespace CypherSql.Sql

open Plan (VarId VarTable)

/-- The demand is for a feature that SQL does not have. -/
def Demand.isFeature : Demand → Bool
  | .feature _ => true
  | _ => false

section Properties

variable {context : Context} {id : VarId} {key : String} {item : Plan.FromItem}

/-- A property that a subquery supplies is read from there. -/
theorem Context.property_of_subquery {name : String}
    (supplied : context.select.supplier? id = some item)
    (named : context.subqueryName item = .ok (some name))
    : context.property id key = .ok (.column name (propertyColumn id key)) := by
  simp [property, supplier, supplied, named, bind, Except.bind, pure, Except.pure]

/-- A property that a table supplies is a column of the table. -/
theorem Context.property_of_table {columns : String × NameMap String}
    (supplied : context.select.supplier? id = some item)
    (noName : context.subqueryName item = .ok none)
    (found : tableColumns context.vars id = .ok columns)
    : context.property id key = .ok (.column id (columnFor columns.2 key)) := by
  simp [property, supplier, supplied, noName, found, bind, Except.bind, pure, Except.pure]

/-- A property of a variable that nothing supplies is missing. -/
theorem Context.property_of_none (missing : context.select.supplier? id = none)
    : context.property id key = .error (.missingSupplier .property id context.scope) := by
  simp [property, supplier, missing, bind, Except.bind]

end Properties

end CypherSql.Sql

namespace CypherSql.Plan

section Scopes

variable {tree : Tree} {vars : VarTable} {scope : Scope} {exports : Option (List Export)}
  {id : VarId} {key : String} {expr : Expr}

/-- What a scope names and writes is read in that scope. -/
theorem reads_of_projections (settled : scope.Settled vars) {named : VarId}
    (declared : .named named ∈ scope.items)
    (projects : expr ∈ (Sql.contextOf tree.subqueries vars scope).projections named)
    (isPart : .property (.var id) key ∈ expr.parts)
    : tree.Reads vars id key scope.index := by
  obtain ⟨var, projected, type, found, index, definition⟩ := settled.declares _ declared
  have isProjection : (vars.definition? named).bind Definition.projection? = some expr :=
    Option.mem_toList.mp projects
  rw [VarTable.definition?_of_get? found, Option.bind_some] at isProjection
  exact index ▸ .projection found isProjection isPart

/-- What a scope writes of a variable, it reads. -/
theorem reads_of_written (settled : scope.Settled vars) (member : scope ∈ tree.scopes)
    (isWritten : expr ∈ (Sql.contextOf tree.subqueries vars scope).writtenExprs scope exports)
    (accesses : Sql.Accesses (.var id) key expr)
    : tree.Reads vars id key scope.index := by
  have isPart := accesses.mem_parts
  have own (inside : expr ∈ scope.expressions) : tree.Reads vars id key scope.index :=
    .expression member inside isPart
  simp only [Sql.Context.writtenExprs, List.mem_append] at isWritten
  rcases isWritten with ((((column | join) | condition) | sorting) | limit) | skip
  · cases exports with
    | some exports =>
        obtain ⟨exported, -, inside⟩ := List.mem_flatMap.mp column
        cases exported with
        | entity other => exact absurd inside List.not_mem_nil
        | scalar other =>
            simp only [Sql.Context.exportExprs] at inside
            by_cases declared : other ∈ scope.declared
            · rw [if_pos declared] at inside
              exact reads_of_projections settled (Sql.mem_declared.mp declared) inside isPart
            · rw [if_neg declared] at inside
              exact absurd inside List.not_mem_nil
    | none =>
        obtain ⟨item, listed, inside⟩ := List.mem_flatMap.mp column
        cases item with
        | named other => exact reads_of_projections settled listed inside isPart
        | unnamed other name =>
            obtain rfl := List.mem_singleton.mp inside
            refine own ?_
            rw [Scope.expressions_eq]
            simp only [List.mem_append]
            exact .inl (.inl (.inl (.inl (.inl (.inl (.inl
              (List.mem_filterMap.mpr ⟨_, listed, rfl⟩)))))))
  all_goals
    refine own ?_
    rw [Scope.expressions_eq]
    simp only [List.mem_append]
    tauto

/-- A property that a scope reads of a node or relationship is selected by the subquery that
supplies it.
-/
theorem property_mem_columns_of_read {catalog : Catalog} {query : Cypher.Query} {lowered : Lowered}
    (succeeded : lower catalog query = .ok lowered) (member : scope ∈ lowered.tree.scopes)
    {item : FromItem} (listed : item ∈ scope.select.items) {source : Nat}
    (isSource : item.source = some source) {subquery : Subquery}
    (found : lowered.tree.subqueries[source]? = some subquery) (supplies : id ∈ item.ids)
    (isElement : lowered.vars.IsElement id)
    (isRead : lowered.tree.Reads lowered.vars id key scope.index)
    : .property id key ∈ subquery.columns lowered.vars := by
  obtain ⟨handsOver, marks⟩ := lower_handsOver succeeded
  obtain ⟨other, found', behind, exported⟩ := handsOver.subquery member listed isSource
  obtain rfl := Option.some.inj (found.symm.trans found')
  obtain ⟨export', isExport, rfl⟩ := (exported id supplies).resolve_left isElement.not_isPath
  obtain ⟨outermost, required, notBefore⟩ := marks.isMarked isElement isRead
  have isEntity := handsOver.entity (List.mem_of_getElem? found) isExport isElement
  rw [Subquery.property_mem_columns, VarTable.mem_readAfter, handsOver.indexed.subquery_index found]
  exact ⟨isEntity, outermost, required, by omega⟩

/-- A property that a source supplies is written as a column, which the source has exactly if the
variable is a node or relationship.
-/
theorem exists_column {catalog : Catalog} {query : Cypher.Query} {lowered : Lowered}
    (succeeded : lower catalog query = .ok lowered) (settled : lowered.tree.Settled lowered.vars)
    (member : scope ∈ lowered.tree.scopes)
    (isRead : lowered.tree.Reads lowered.vars id key scope.index)
    {item : FromItem} (supplied : scope.select.supplier? id = some item)
    : ∃ column,
        (Sql.contextOf lowered.tree.subqueries lowered.vars scope).property id key = .ok column
        ∧ (lowered.tree.Provides lowered.vars id key item column ↔ lowered.vars.IsElement id) := by
  have listed : item ∈ scope.select.items := List.mem_of_find?_eq_some supplied
  have supplies : id ∈ item.ids := by simpa [FromItem.supplies] using List.find?_some supplied
  cases isSource : item.source with
  | none =>
      obtain ⟨columns, found⟩ :=
        (Sql.sound_of_settled settled member).bound item listed isSource id supplies
      have noName : (Sql.contextOf lowered.tree.subqueries lowered.vars scope).subqueryName item
          = .ok none := by
        simp [Sql.Context.subqueryName, isSource]
      exact ⟨_, Sql.Context.property_of_table supplied noName found, Tree.Provides.isElement,
        fun _ => .table isSource found⟩
  | some source =>
      obtain ⟨-, subquery, name, found, named⟩ :=
        Sql.subquery_of_settled settled member listed isSource
      have isName : (Sql.contextOf lowered.tree.subqueries lowered.vars scope).subqueryName item
          = .ok (some name) := by
        simp [Sql.Context.subqueryName, Sql.contextOf, isSource, found, named]
      refine ⟨_, Sql.Context.property_of_subquery supplied isName, Tree.Provides.isElement, ?_⟩
      intro isElement
      have selected :=
        property_mem_columns_of_read succeeded member listed isSource found supplies
          isElement isRead
      exact .subquery isSource found named selected

end Scopes

/-- What becomes of a property in a scope. A base that is no variable is refused as unsupported. A
variable that no source supplies is missing, which is a bug. Of any other variable a column is
written, which its source has exactly if the variable is a node or relationship.
-/
inductive Lowered.Accessed (lowered : Lowered) (scope : Scope) (key : String)
    : Expr → Except Sql.RenderError Sql.Expr → Prop where
  | refused {base} (noVariable : ∀ id, base ≠ .var id)
    : Accessed lowered scope key base (.error (.unsupported (.propertyOf base)))
  | missing {id} (missing : scope.select.supplier? id = none)
    : Accessed lowered scope key (.var id) (.error (.missingSupplier .property id scope.index))
  | column {id item column} (supplied : scope.select.supplier? id = some item)
    (provides_iff
      : lowered.tree.Provides lowered.vars id key item column ↔ lowered.vars.IsElement id)
    : Accessed lowered scope key (.var id) (.ok column)

/-- Nothing is asked for and not met but features that SQL does not have. -/
def Lowered.OnlyFeaturesUnmet (lowered : Lowered) : Prop :=
  ∀ demand ∈ Sql.treeDemands lowered.tree lowered.vars, demand.met ∨ demand.isFeature

/-- A query is not written where some demand is not met, and fails as unsupported if features alone
are not met.
-/
theorem treeText_error_of_unmet {lowered : Lowered} (settled : lowered.tree.Settled lowered.vars)
    {demand : Sql.Demand} (asks : demand ∈ Sql.treeDemands lowered.tree lowered.vars)
    (unmet : demand.met = false)
    : ∃ error,
        Sql.treeText lowered.tree lowered.vars = .error error
        ∧ (lowered.OnlyFeaturesUnmet → ∃ asked, error = .unsupported asked) := by
  obtain ⟨first, isFirst⟩ : ∃ first,
      Sql.firstUnmet (Sql.treeDemands lowered.tree lowered.vars) = some first := by
    refine Option.isSome_iff_exists.mp (List.find?_isSome.mpr ⟨demand, asks, ?_⟩)
    rw [unmet]
    rfl
  have answers := Sql.treeText_answers settled
  cases text : Sql.treeText lowered.tree lowered.vars with
  | ok sql =>
      rw [text] at answers
      have none : Sql.firstUnmet _ = none := answers
      rw [isFirst] at none
      cases none
  | error error =>
      rw [text] at answers
      have same : (Sql.firstUnmet _).map Sql.Demand.error = some error := answers
      rw [isFirst, Option.map_some, Option.some.injEq] at same
      refine ⟨error, rfl, fun onlyFeatures => ?_⟩
      have unmet : first.met = false := by simpa using List.find?_some isFirst
      have isFeature := onlyFeatures first (List.mem_of_find?_eq_some isFirst)
      cases first with
      | feature asked => exact ⟨asked, same.symm⟩
      | _ => simp [unmet, Sql.Demand.isFeature] at isFeature

/-- Every property that a lowered query is written with is refused, missing, or written as a column
that its source has exactly if the variable is a node or relationship. Where it is not written,
neither is the query, which fails as unsupported if nothing but features is missing.
-/
theorem propertyAccess_outcome {source : String} {query : Cypher.Query} {catalog : Catalog}
    {lowered : Lowered} (parsed : Cypher.Query.parse source = .ok query)
    (succeeded : lower catalog query = .ok lowered)
    : ∀ scope exports,
        (scope, exports) ∈ lowered.tree.blocks
        → let context := Sql.contextOf lowered.tree.subqueries lowered.vars scope
          ∀ expr ∈ context.writtenExprs scope exports,
            ∀ base key,
              Sql.Accesses base key expr
              → lowered.Accessed scope key base (context.expr (.property base key))
                ∧ ∀ error,
                    context.expr (.property base key) = .error error
                    → ∃ first,
                        Sql.treeText lowered.tree lowered.vars = .error first
                        ∧ (lowered.OnlyFeaturesUnmet → ∃ asked, first = .unsupported asked) := by
  intro scope exports member context expr isWritten base key accesses
  have settled := (lower_safely parsed catalog).of_ok succeeded
  have isScope := Tree.mem_scopes_of_blocks member
  constructor
  · cases base with
    | var id =>
        cases supplied : scope.select.supplier? id with
        | none =>
            have missing : context.expr (.property (.var id) key)
                = .error (.missingSupplier .property id scope.index) :=
              Sql.Context.property_of_none supplied
            exact missing ▸ .missing supplied
        | some item =>
            have isRead :=
              reads_of_written (settled.scopes scope isScope) isScope isWritten accesses
            obtain ⟨column, written, provides_iff⟩ :=
              exists_column succeeded settled isScope isRead supplied
            have written : context.expr (.property (.var id) key) = .ok column := written
            exact written ▸ .column supplied provides_iff
    | _ =>
        refine .refused fun id same => ?_
        cases same
  · intro error fails
    have answers := (Sql.sound_of_settled settled isScope).expr_answers (.property base key)
    -- An access demands one thing only, so that its error is that of the unmet demand.
    have alone : context.demands (.property base key) = [context.accessDemand base] := by
      cases base <;> rfl
    have unmet : (context.accessDemand base).met = false := by
      rw [fails, alone] at answers
      have first : (Sql.firstUnmet [context.accessDemand base]).map Sql.Demand.error = some error :=
        answers
      by_contra met
      simp [Sql.firstUnmet, met] at first
    refine treeText_error_of_unmet settled ?_ unmet
    exact Sql.mem_treeDemands settled member fun inner =>
      Sql.Context.accessDemand_mem_scopeDemands isWritten accesses

/-- Witness: the `RETURN` reads a property of a node that the subquery has under another name and
one of a constant. The first is a column that the subquery selects, and the query fails for the
second.
-/
theorem renamedNode_propertyAccess_outcome
    : ∃ query lowered item column,
        Cypher.Query.parse "MATCH (a:Person) WITH a AS c, 1 AS one RETURN c.name, one.k" = .ok query
        ∧ lower acquaintances.catalog query = .ok lowered
        ∧ lowered.tree.root.select.supplier? "a" = some item
        ∧ lowered.tree.Provides lowered.vars "a" "name" item column
        ∧ ∃ asked, Sql.treeText lowered.tree lowered.vars = .error (.unsupported asked) := by
  have reached : ((Cypher.Query.parse
        "MATCH (a:Person) WITH a AS c, 1 AS one RETURN c.name, one.k").toOption.any fun query =>
      (lower acquaintances.catalog query).toOption.any fun lowered =>
        (lowered.vars.node? "a").isSome
        ∧ (lowered.tree.root.select.supplier? "a").isSome
        ∧ (∀ demand ∈ Sql.treeDemands lowered.tree lowered.vars, demand.met ∨ demand.isFeature)
        ∧ ∀ expr ∈ [.property (.var "a") "name", .property (.literal (.integer 1)) "k"],
            expr
            ∈ (Sql.contextOf lowered.tree.subqueries lowered.vars lowered.tree.root).writtenExprs
                lowered.tree.root none) = true := by
    rw [Cypher.Query.toOption_parse, String.toList_ofList]
    decide +kernel
  obtain ⟨query, parsed, reached⟩ := (Option.any_eq_true _ _).mp reached
  obtain ⟨lowered, succeeded, reached⟩ := (Option.any_eq_true _ _).mp reached
  obtain ⟨isNode, isSupplied, onlyFeatures, written⟩ := of_decide_eq_true reached
  have parsed := toOption_eq_some.mp parsed
  have succeeded := toOption_eq_some.mp succeeded
  obtain ⟨node, isNode⟩ := Option.isSome_iff_exists.mp isNode
  have root : (lowered.tree.root, none) ∈ lowered.tree.blocks := by simp [Tree.blocks]
  have outcome := propertyAccess_outcome parsed succeeded _ _ root
  have named := (outcome _ (written _ (by simp)) (.var "a") "name" .here).1
  have constant :=
    (outcome _ (written (.property (.literal (.integer 1)) "k") (by simp)) _ _ .here).2
  obtain ⟨error, fails, unsupported⟩ := constant _ rfl
  obtain ⟨asked, rfl⟩ := unsupported onlyFeatures
  obtain ⟨item, column, supplied, provides⟩ : ∃ item column,
      lowered.tree.root.select.supplier? "a" = some item
      ∧ lowered.tree.Provides lowered.vars "a" "name" item column := by
    generalize Sql.Context.expr _ (.property (.var "a") "name") = result at named
    cases named with
    | refused noVariable => exact absurd rfl (noVariable "a")
    | missing missing => simp [missing] at isSupplied
    | @column _ item column supplied provides_iff =>
        exact ⟨item, column, supplied,
          provides_iff.mpr ⟨.node node, VarTable.node?_eq_some.mp isNode, rfl⟩⟩
  exact ⟨query, lowered, item, column, parsed, succeeded, supplied, provides, asked, fails⟩

/-- A property of a value that is no constant is not refused: the query is written as SQL, with a
column that the subquery does not select.
-/
theorem propertyOfValue_notSelected
    : ∃ query lowered,
        Cypher.Query.parse "MATCH (a:Person) WITH a.age AS x RETURN x.k" = .ok query
        ∧ lower acquaintances.catalog query = .ok lowered
        ∧ (lowered.vars.definition? "x").bind Definition.projection?
          = some (.property (.var "a") "age")
        ∧ .property (.var "x") "k"
          ∈ (Sql.contextOf lowered.tree.subqueries lowered.vars lowered.tree.root).writtenExprs
              lowered.tree.root none
        ∧ lowered.tree.subqueries.map (Subquery.columns lowered.vars) = [[.value "x"]]
        ∧ Sql.treeText lowered.tree lowered.vars
          = .ok "SELECT with_0.x__k AS \"x.k\" FROM (SELECT a.age AS x FROM persons AS a) AS with_0" := by
  have reached : ((Cypher.Query.parse
        "MATCH (a:Person) WITH a.age AS x RETURN x.k").toOption.any fun query =>
      (lower acquaintances.catalog query).toOption.any fun lowered =>
        (lowered.vars.definition? "x").bind Definition.projection?
          = some (.property (.var "a") "age")
        ∧ .property (.var "x") "k"
          ∈ (Sql.contextOf lowered.tree.subqueries lowered.vars lowered.tree.root).writtenExprs
              lowered.tree.root none
        ∧ lowered.tree.subqueries.map (Subquery.columns lowered.vars) = [[.value "x"]]
        ∧ (Sql.treeText lowered.tree lowered.vars).toOption
          = some
              "SELECT with_0.x__k AS \"x.k\" FROM (SELECT a.age AS x FROM persons AS a) AS with_0")
      = true := by
    rw [Cypher.Query.toOption_parse, String.toList_ofList]
    decide +kernel
  obtain ⟨query, parsed, reached⟩ := (Option.any_eq_true _ _).mp reached
  obtain ⟨lowered, succeeded, reached⟩ := (Option.any_eq_true _ _).mp reached
  obtain ⟨definition, written, columns, text⟩ := of_decide_eq_true reached
  exact ⟨query, lowered, toOption_eq_some.mp parsed, toOption_eq_some.mp succeeded,
    definition, written, columns, toOption_eq_some.mp text⟩

end CypherSql.Plan
