import CypherSql.Proofs.Pipeline
import CypherSql.Proofs.Rendering.Demands
import CypherSql.Sql.Render

/-! What writing a settled tree asks for. Its scopes, sources and exports are as they have to be, so
that only the demands of its expressions and of its exported entities are left.
-/

namespace CypherSql.Sql

open Plan (VarId VarTable)

namespace Context

/-- The demands of the expression that a variable projects. -/
def projectionDemands (context : Context) (id : VarId) : List Demand :=
  ((context.vars.definition? id).bind Plan.Definition.projection?).elim [] context.demands

/-- The demands of a returned item. -/
def returnDemands (context : Context) : Plan.Item → List Demand
  | .named id => context.projectionDemands id
  | .unnamed expr _ => context.demands expr

/-- The demands of an export: those of its value, and for an entity that it is one and that each
property that is read later has a source.
-/
def exportDemands (context : Context) (declared : List VarId) : Plan.Export → List Demand
  | .entity id =>
      let properties := (exportedProperties context.vars id context.scope).toOption.getD []
      context.valueDemands id ++
        .entity id (context.vars.definition? id) ::
        properties.map fun _ => context.supplierDemand .property id
  | .scalar id =>
      if id ∈ declared then context.projectionDemands id else context.valueDemands id

/-- The demands of a sort key. One that the scope names is the column itself. -/
def sortDemands (context : Context) (declared : List VarId) (key : Plan.SortKey) : List Demand :=
  match key.expr with
  | .var id => if id ∈ declared then [] else context.demands key.expr
  | expr => context.demands expr

/-- The demands of what is done to the rows of a scope at the end. -/
def pagingDemands (context : Context) (scope : Plan.Scope) : List Demand :=
  scope.orderBy.flatMap (context.sortDemands scope.declared) ++
    (scope.limit.toList.flatMap context.demands ++ scope.skip.toList.flatMap context.demands)

/-- The demands of the columns of a scope: of what it exports, or of what it returns. -/
def entryDemands (context : Context) (scope : Plan.Scope) : Option (List Plan.Export) → List Demand
  | some exports => exports.flatMap (context.exportDemands scope.declared)
  | none => scope.items.flatMap context.returnDemands

/-- The demands of a scope, given those of the subquery it reads: first those of its columns, then
those of its sources, its joins, its conditions, and of its sorting and cutting.
-/
def scopeDemands (context : Context) (inner : List Demand) (scope : Plan.Scope)
    (exports : Option (List Plan.Export)) : List Demand :=
  context.entryDemands scope exports ++
    (scope.select.fromItems.flatMap (fun item => if item.source.isSome then inner else []) ++
    (scope.select.joins.flatMap (fun join => context.demands join.condition) ++
    (scope.select.conditions.flatMap context.demands ++ context.pagingDemands scope)))

end Context

/-- The demands of subqueries of a tree, each after those it reads. -/
def subqueryDemands (tree : Plan.Tree) (vars : VarTable) (subqueries : List Plan.Subquery)
    : List Demand :=
  subqueries.foldl (fun inner subquery =>
    (contextOf tree.subqueries vars subquery.scope).scopeDemands inner subquery.scope
      (some subquery.exports)) []

/-- The demands of a tree. -/
def treeDemands (tree : Plan.Tree) (vars : VarTable) : List Demand :=
  (contextOf tree.subqueries vars tree.root).scopeDemands
    (subqueryDemands tree vars tree.subqueries) tree.root none

section Scopes

variable {tree : Plan.Tree} {vars : VarTable} {scope : Plan.Scope} {item : Plan.FromItem}

theorem tableColumns_of_bound {id : VarId} (bound : vars.Bound id)
    : ∃ columns, tableColumns vars id = .ok columns := by
  obtain ⟨definition, found, isBound⟩ := bound
  unfold tableColumns
  rw [found]
  cases definition with
  | node pattern =>
      obtain ⟨labels, restriction, required, binding⟩ := pattern
      cases binding with
      | none => cases isBound
      | some binding => exact ⟨_, rfl⟩
  | relationship rel =>
      obtain ⟨left, right, direction, types, restriction, required, binding⟩ := rel
      cases binding with
      | none => cases isBound
      | some binding => exact ⟨_, rfl⟩
  | _ => cases isBound

/-- A settled item that is no subquery is the table of one variable. -/
theorem table_of_settled (settled : item.Settled vars) (noSource : item.source = none)
    : ∃ id table, item.ids = [id] ∧ item.tableVar? = some id ∧ item.table = some table := by
  have sound := settled.sound
  unfold Plan.FromItem.fault? at sound
  rw [noSource] at sound
  match listed : item.ids, tabled : item.table with
  | [id], some table =>
      exact ⟨id, table, rfl, by simp [Plan.FromItem.tableVar?, noSource, listed], rfl⟩
  | [id], none => simp [listed, tabled] at sound
  | [], _ => simp [listed] at sound
  | _ :: _ :: _, _ => simp [listed] at sound

/-- A scope of a settled tree reads the subquery before it, which has a name. -/
theorem subquery_of_settled (settled : tree.Settled vars) (member : scope ∈ tree.scopes)
    (inSelect : item ∈ scope.select.items) {source : Nat} (isSource : item.source = some source)
    : source + 1 = scope.index
      ∧ ∃ subquery name, tree.subqueries[source]? = some subquery ∧ subquery.name = some name := by
  have scopeSettled := settled.scopes scope member
  rcases List.mem_append.mp inSelect with inFrom | joined
  · have behind := (scopeSettled.reads source).mp ⟨item, inFrom, isSource⟩
    have within := settled.indexed.index_le member
    have found := List.getElem?_eq_getElem (show source < tree.subqueries.length by omega)
    obtain ⟨name, named⟩ := Option.isSome_iff_exists.mp
      (settled.names _ (List.mem_of_getElem? found))
    exact ⟨behind, _, name, found, named⟩
  · obtain ⟨join, isJoin, rfl⟩ := List.mem_map.mp joined
    simp [scopeSettled.joins join isJoin] at isSource

/-- The sources of a scope of a settled tree can be read. -/
theorem sound_of_settled (settled : tree.Settled vars) (member : scope ∈ tree.scopes)
    : (contextOf tree.subqueries vars scope).Sound := by
  constructor
  · intro item inSelect source isSource
    obtain ⟨-, subquery, name, found, named⟩ := subquery_of_settled settled member inSelect isSource
    exact ⟨name, by simp [contextOf, found, named]⟩
  · intro item inSelect noSource id supplies
    have itemSettled := (settled.scopes scope member).sources item inSelect
    obtain ⟨other, table, ids, isTable, -⟩ := table_of_settled itemSettled noSource
    rw [ids, List.mem_singleton] at supplies
    subst supplies
    exact tableColumns_of_bound (itemSettled.housed id isTable).2

/-- What a settled scope names is projected, and has a column name. -/
theorem projected_of_declared (settled : scope.Settled vars) {id : VarId}
    (declared : .named id ∈ scope.items)
    : ∃ expr name,
        (vars.definition? id).bind Plan.Definition.projection? = some expr
        ∧ projectedExpr vars id = .ok expr
        ∧ columnName vars id = .ok name := by
  obtain ⟨var, expr, type, found, -, definition⟩ := settled.declares _ declared
  have projects : (vars.definition? id).bind Plan.Definition.projection? = some expr := by
    rw [VarTable.definition?_of_get? found, definition]
    rfl
  exact ⟨expr, var.columnName, projects, by simp [projectedExpr, projects],
    by simp [columnName, found]⟩

theorem mem_declared {id : VarId} : id ∈ scope.declared ↔ .named id ∈ scope.items := by
  unfold Plan.Scope.declared
  rw [List.mem_filterMap]
  constructor
  · intro listed
    obtain ⟨item, member, names⟩ := listed
    cases item with
    | named other => rwa [Option.some.inj names] at member
    | unnamed => cases names
  · intro member
    exact ⟨_, member, rfl⟩

namespace Context

variable {context : Context}

theorem Sound.entry_answers (sound : context.Sound) (expr : Plan.Expr) (name : String)
    : Answers (context.demands expr) (context.entry expr name) :=
  (sound.expr_answers expr).map _

theorem Sound.valueEntry_answers (sound : context.Sound) (id : VarId)
    : Answers (context.valueDemands id) (context.valueEntry id) :=
  (sound.valueWithin_answers context.vars.size id).map _

/-- The column of a returned item answers its demands. -/
theorem Sound.returnEntry_answers (sound : context.Sound) (settled : scope.Settled context.vars)
    {item : Plan.Item} (member : item ∈ scope.items)
    : Answers (context.returnDemands item) (context.returnEntry item) := by
  cases item with
  | named id =>
      obtain ⟨expr, name, projects, projected, column⟩ := projected_of_declared settled member
      simp only [returnDemands, projectionDemands, returnEntry, projects, projected, column]
      exact sound.entry_answers expr name
  | unnamed expr column =>
      obtain ⟨name, temporary⟩ := settled.declares _ member
      obtain ⟨var, found, -⟩ := VarTable.definition?_eq_some.mp temporary
      simp only [returnDemands, returnEntry, columnName, found]
      exact sound.entry_answers expr var.columnName

/-- The properties of an entity that later scopes read ask that it is one. -/
theorem exportedProperties_answers (vars : VarTable) (id : VarId) (index : Nat)
    : Answers [.entity id (vars.definition? id)] (exportedProperties vars id index) := by
  unfold exportedProperties
  cases vars.definition? id with
  | none => rfl
  | some definition => cases definition <;> rfl

/-- The columns of an export answer its demands. -/
theorem Sound.exportEntries_answers (sound : context.Sound) (settled : scope.Settled context.vars)
    (exported : Plan.Export)
    : Answers (context.exportDemands scope.declared exported)
        (context.exportEntries scope.declared exported) := by
  cases exported with
  | entity id =>
      apply (sound.valueEntry_answers id).bind
      intro key _
      apply (exportedProperties_answers context.vars id context.scope).bind
      intro properties found
      have each : Answers (properties.flatMap fun _ => [context.supplierDemand .property id])
          (properties.mapM (context.propertyEntry id)) :=
        Answers.mapM fun property _ => (sound.property_answers id property).map _
      rw [found]
      rw [← List.map_eq_flatMap] at each
      exact each.map _
  | scalar id =>
      simp only [exportDemands, exportEntries]
      by_cases declared : id ∈ scope.declared
      · obtain ⟨expr, -, projects, projected, -⟩ :=
          projected_of_declared settled (mem_declared.mp declared)
        rw [if_pos declared, if_pos declared, projectionDemands, projects, projected]
        exact (sound.entry_answers expr id).map _
      · rw [if_neg declared, if_neg declared]
        exact (sound.valueEntry_answers id).map _

/-- The columns of a scope answer their demands. -/
theorem Sound.scopeEntries_answers (sound : context.Sound) (settled : scope.Settled context.vars)
    (exports : Option (List Plan.Export))
    : Answers (context.entryDemands scope exports) (scopeEntries context scope exports) := by
  cases exports with
  | none => exact Answers.mapM fun item => sound.returnEntry_answers settled
  | some exports =>
      exact (Answers.mapM fun exported _ => sound.exportEntries_answers settled exported).map _

/-- An export has a column, whatever else there may be. -/
theorem exportEntries_ne_nil (declared : List VarId) (exported : Plan.Export)
    : Plan.Modality.ofOk.Holds (fun entries => entries ≠ [])
        (context.exportEntries declared exported) := by
  unfold exportEntries
  cases exported with
  | entity id =>
      refine Plan.Modality.ofOk.bind (Plan.Modality.ofOk_any _) fun key _ => ?_
      refine Plan.Modality.ofOk.bind (Plan.Modality.ofOk_any _) fun properties _ => ?_
      refine Plan.Modality.ofOk.bind (Plan.Modality.ofOk_any _) fun entries _ => ?_
      exact Plan.Modality.ofOk.pure (List.cons_ne_nil _ _)
  | scalar id =>
      dsimp only
      split
      · refine Plan.Modality.ofOk.bind (Plan.Modality.ofOk_any _) fun expr _ => ?_
        refine Plan.Modality.ofOk.bind (Plan.Modality.ofOk_any _) fun entry _ => ?_
        exact Plan.Modality.ofOk.pure (List.cons_ne_nil _ _)
      · refine Plan.Modality.ofOk.bind (Plan.Modality.ofOk_any _) fun entry _ => ?_
        exact Plan.Modality.ofOk.pure (List.cons_ne_nil _ _)

/-- A scope that returns or exports something has a column. -/
theorem scopeEntries_ne_nil {exports : Option (List Plan.Export)} (projects : scope.items ≠ [])
    (exportsSome : exports ≠ some [])
    : Plan.Modality.ofOk.Holds (fun entries => entries ≠ [])
        (scopeEntries context scope exports) := by
  unfold scopeEntries
  cases exports with
  | none =>
      refine Plan.Modality.ofOk.mono (Plan.Modality.ofOk.mapM fun item _ =>
        Plan.Modality.ofOk_any (context.returnEntry item)) fun entries each empty => ?_
      rw [empty] at each
      exact projects (List.forall₂_nil_right_iff.mp each)
  | some exports =>
      refine Plan.Modality.ofOk.bind (Plan.Modality.ofOk.mapM fun exported _ =>
        exportEntries_ne_nil scope.declared exported) fun lists each => ?_
      refine Plan.Modality.ofOk.pure ?_
      cases each with
      | nil => exact absurd rfl exportsSome
      | cons first =>
          intro empty
          exact first (List.append_eq_nil_iff.mp empty).1

end Context

/-- The subqueries written so far end with the one before a scope, which answers some demands. -/
def WrittenBefore (written : List (Except RenderError String)) (inner : List Demand)
    (scope : Plan.Scope)
    : Prop :=
  ∀ source, source + 1 = scope.index → ∃ text, written[source]? = some text ∧ Answers inner text

variable {written : List (Except RenderError String)} {inner : List Demand}

/-- A source asks for nothing but what the subquery that it is asks for. -/
theorem sourceOf_answers (settled : tree.Settled vars) (member : scope ∈ tree.scopes)
    (before : WrittenBefore written inner scope) (inSelect : item ∈ scope.select.items)
    : Answers (if item.source.isSome then inner else [])
        (sourceOf tree.subqueries written item) := by
  have itemSettled := (settled.scopes scope member).sources item inSelect
  unfold sourceOf
  simp only [itemSettled.sound, itemSettled.placed, List.isEmpty_nil, Bool.not_true,
    Bool.false_eq_true, if_false]
  cases isSource : item.source with
  | none =>
      obtain ⟨id, table, -, isTable, tabled⟩ := table_of_settled itemSettled isSource
      simp only [tabled, isTable]
      exact .ok _
  | some source =>
      obtain ⟨behind, subquery, name, found, named⟩ :=
        subquery_of_settled settled member inSelect isSource
      obtain ⟨text, present, answers⟩ := before source behind
      obtain ⟨_, subscope, exports⟩ := subquery
      obtain rfl : _ = some name := named
      simp only [found, present]
      exact answers.map _

/-- A join asks for what its condition asks for. -/
theorem scopeJoin_answers (settled : tree.Settled vars) (member : scope ∈ tree.scopes)
    (before : WrittenBefore written inner scope) {join : Plan.Join}
    (isJoin : join ∈ scope.select.joins)
    : Answers ((contextOf tree.subqueries vars scope).demands join.condition)
        (scopeJoin (contextOf tree.subqueries vars scope) written join) := by
  have inSelect : join.item ∈ scope.select.items :=
    List.mem_append_right _ (List.mem_map_of_mem isJoin)
  have source := sourceOf_answers settled member before inSelect
  rw [(settled.scopes scope member).joins join isJoin] at source
  have answers := source.bind fun source _ =>
    ((sound_of_settled settled member).expr_answers join.condition).map fun condition =>
      ({ outer := join.outer, source, condition } : Join)
  exact answers

/-- Sorting and cutting answers its demands. -/
theorem scopePaging_answers (settled : tree.Settled vars) (member : scope ∈ tree.scopes)
    : Answers ((contextOf tree.subqueries vars scope).pagingDemands scope)
        (scopePaging (contextOf tree.subqueries vars scope) scope) := by
  have sound := sound_of_settled settled member
  have sorts : ∀ key ∈ scope.orderBy,
      Answers ((contextOf tree.subqueries vars scope).sortDemands scope.declared key)
        (sortTerm (contextOf tree.subqueries vars scope) scope key) := by
    intro key _
    obtain ⟨expr, descending⟩ := key
    cases expr with
    | var id =>
        simp only [Context.sortDemands, sortTerm]
        by_cases declared : id ∈ scope.declared
        · obtain ⟨-, name, -, -, column⟩ := projected_of_declared
            (settled.scopes scope member) (mem_declared.mp declared)
          rw [if_pos declared, if_pos declared]
          cases scope.kind with
          | returnClause =>
              simp only [contextOf, column]
              exact .ok _
          | withClause => exact .ok _
        · rw [if_neg declared, if_neg declared]
          exact (sound.expr_answers _).map _
    | _ => exact (sound.expr_answers _).map _
  apply (Answers.mapM sorts).bind
  intro orderBy _
  apply (Answers.optionMapM sound.expr_answers scope.limit).bind
  intro limit _
  exact (Answers.optionMapM sound.expr_answers scope.skip).map _

/-- The select of a scope answers its demands. -/
theorem scopeSelect_answers (settled : tree.Settled vars) (member : scope ∈ tree.scopes)
    (before : WrittenBefore written inner scope) {exports : Option (List Plan.Export)}
    (exportsSome : exports ≠ some [])
    : Answers ((contextOf tree.subqueries vars scope).scopeDemands inner scope exports)
        (scopeSelect (contextOf tree.subqueries vars scope) written scope exports true) := by
  have sound := sound_of_settled settled member
  have scopeSettled := settled.scopes scope member
  apply (sound.scopeEntries_answers scopeSettled exports).bind
  intro entries found
  have nonempty := Context.scopeEntries_ne_nil scopeSettled.projects exportsSome entries found
  rw [if_neg (by simpa using nonempty)]
  apply (Answers.mapM fun item inFrom =>
    sourceOf_answers settled member before (List.mem_append_left _ inFrom)).bind
  intro sources _
  apply (Answers.mapM fun join => scopeJoin_answers settled member before).bind
  intro joins _
  apply (Answers.mapM fun condition _ => sound.expr_answers condition).bind
  intro conditions _
  exact (scopePaging_answers settled member).map _

/-- Some subqueries of a tree as they are written. -/
def writtenOf (tree : Plan.Tree) (vars : VarTable) (subqueries : List Plan.Subquery)
    : List (Except RenderError String) :=
  subqueries.foldl (fun written subquery =>
    let context := contextOf tree.subqueries vars subquery.scope
    written ++
      [(scopeSelect context written subquery.scope (some subquery.exports) true).map Select.text])
    []

/-- The first subqueries of a settled tree are written one after the other, and the last of them
answers the demands so far. Witness: induction over their number.
-/
theorem writtenOf_answers (settled : tree.Settled vars) {count : Nat}
    (within : count ≤ tree.subqueries.length)
    : (writtenOf tree vars (tree.subqueries.take count)).length = count
      ∧ ∀ source,
          source + 1 = count
          → ∃ text,
              (writtenOf tree vars (tree.subqueries.take count))[source]? = some text
              ∧ Answers (subqueryDemands tree vars (tree.subqueries.take count)) text := by
  induction count with
  | zero => exact ⟨rfl, nofun⟩
  | succ count ih =>
      obtain ⟨length, last⟩ := ih (Nat.le_of_succ_le within)
      have found := List.getElem?_eq_getElem within
      generalize tree.subqueries[count] = subquery at found
      have member : subquery ∈ tree.subqueries := List.mem_of_getElem? found
      have isScope : subquery.scope ∈ tree.scopes :=
        Plan.Tree.mem_scopes.mpr (.inl ⟨subquery, member, rfl⟩)
      have index : subquery.scope.index = count := settled.indexed.subquery_index found
      have before : WrittenBefore (writtenOf tree vars (tree.subqueries.take count))
          (subqueryDemands tree vars (tree.subqueries.take count)) subquery.scope := by
        intro source behind
        exact last source (behind.trans index)
      have exportsSome : some subquery.exports ≠ some [] :=
        fun same => settled.exports subquery member (Option.some.inj same)
      have answers := scopeSelect_answers settled isScope before exportsSome
      rw [List.take_add_one, found, Option.toList_some]
      unfold writtenOf subqueryDemands at *
      rw [List.foldl_append, List.foldl_append, List.foldl_cons, List.foldl_cons, List.foldl_nil,
        List.foldl_nil]
      refine ⟨by simp [length], fun source behind => ?_⟩
      obtain rfl := Nat.succ.inj behind
      refine ⟨_, ?_, answers.exceptMap Select.text⟩
      rw [List.getElem?_append_right (Nat.le_of_eq length), length, Nat.sub_self]
      rfl

/-- Writing a settled tree answers its demands. -/
theorem treeText_answers (settled : tree.Settled vars)
    : Answers (treeDemands tree vars) (treeText tree vars) := by
  obtain ⟨-, last⟩ := writtenOf_answers settled (Nat.le_refl tree.subqueries.length)
  rw [List.take_length] at last
  have isScope : tree.root ∈ tree.scopes := Plan.Tree.mem_scopes.mpr (.inr rfl)
  have before : WrittenBefore (writtenSubqueries tree vars)
      (subqueryDemands tree vars tree.subqueries) tree.root := by
    intro source behind
    exact last source (behind.trans settled.indexed.root_index)
  have returns : (none : Option (List Plan.Export)) ≠ some [] := nofun
  exact (scopeSelect_answers settled isScope before returns).map Select.text

end Scopes

/-- Writing a lowered query ends in SQL or in a missing feature exactly if the first demand that is
not met, if there is one, is for a feature. Every other failure is for a variable that no source of
its scope supplies, or for an exported entity that is no node or relationship.
-/
theorem treeText_ok_or_unsupported_iff {source : String} {query : Cypher.Query} {catalog : Catalog}
    {lowered : Plan.Lowered} (parsed : Cypher.Query.parse source = .ok query)
    (lowers : Plan.lower catalog query = .ok lowered)
    : ((∃ sql, treeText lowered.tree lowered.vars = .ok sql)
        ∨ ∃ feature, treeText lowered.tree lowered.vars = .error (.unsupported feature))
      ↔ ∀ demand,
          firstUnmet (treeDemands lowered.tree lowered.vars) = some demand
          → ∃ feature, demand = .feature feature := by
  have settled := (Plan.lower_safely parsed catalog).of_ok lowers
  have answers := treeText_answers settled
  constructor
  · intro written demand isFirst
    rcases written with ⟨sql, written⟩ | ⟨feature, refused⟩
    · rw [written] at answers
      have allMet : firstUnmet _ = none := answers
      simp [allMet] at isFirst
    · rw [refused] at answers
      have same : (firstUnmet _).map Demand.error = some (.unsupported feature) := answers
      rw [isFirst, Option.map_some, Option.some.injEq] at same
      cases demand with
      | supplier => cases same
      | entity => cases same
      | feature asked => exact ⟨asked, rfl⟩
  · intro onlyFeatures
    cases written : treeText lowered.tree lowered.vars with
    | ok sql => exact .inl ⟨sql, rfl⟩
    | error error =>
        rw [written] at answers
        obtain ⟨demand, isFirst, same⟩ := Option.map_eq_some_iff.mp answers
        obtain ⟨feature, rfl⟩ := onlyFeatures demand isFirst
        exact .inr ⟨feature, by rw [← same]; rfl⟩

/-- What the query of some characters is written as, if it can be read and lowered. -/
def written? (catalog : Catalog) (source : List Char) : Option (Except RenderError String) := do
  let query ← Cypher.Query.ofChars? source
  let lowered ← (Plan.lower catalog query).toOption
  some (treeText lowered.tree lowered.vars)

theorem exists_of_written? {catalog : Catalog} {source : String}
    {result : Except RenderError String} (isWritten : written? catalog source.toList = some result)
    : ∃ query lowered,
        Cypher.Query.parse source = .ok query
        ∧ Plan.lower catalog query = .ok lowered
        ∧ treeText lowered.tree lowered.vars = result := by
  obtain ⟨query, parsed, isWritten⟩ := Option.bind_eq_some_iff.mp isWritten
  obtain ⟨lowered, lowers, isWritten⟩ := Option.bind_eq_some_iff.mp isWritten
  rw [← Cypher.Query.toOption_parse] at parsed
  exact ⟨query, lowered, Plan.toOption_eq_some.mp parsed, Plan.toOption_eq_some.mp lowers,
    Option.some.inj isWritten⟩

/-- Witness: of a query that passes a node on under another name every demand is met. -/
theorem renamedNode_ok_or_unsupported_iff
    : ∃ query lowered sql,
        Cypher.Query.parse "MATCH (a:Person) WITH a AS b RETURN b.name" = .ok query
        ∧ Plan.lower Plan.acquaintances.catalog query = .ok lowered
        ∧ treeText lowered.tree lowered.vars = .ok sql
        ∧ ∀ demand,
            firstUnmet (treeDemands lowered.tree lowered.vars) = some demand
            → ∃ feature, demand = .feature feature := by
  have isWritten : ((written? Plan.acquaintances.catalog
      "MATCH (a:Person) WITH a AS b RETURN b.name".toList).any Except.isOk) = true := by
    rw [String.toList_ofList]
    decide +kernel
  obtain ⟨result, isWritten, succeeds⟩ := (Option.any_eq_true _ _).mp isWritten
  obtain ⟨query, lowered, parsed, lowers, text⟩ := exists_of_written? isWritten
  cases result with
  | error => cases succeeds
  | ok sql =>
      exact ⟨query, lowered, sql, parsed, lowers, text,
        (treeText_ok_or_unsupported_iff parsed lowers).mp (.inl ⟨sql, text⟩)⟩

/-- The key of a node cannot be passed on under a name: the name comes to stand for the node once
`id(a)` is written as `a`, and is replaced by it where only the name itself is supplied.
-/
theorem passedKey_missingSupplier
    : ∃ query lowered,
        Cypher.Query.parse "MATCH (a:Person) WITH id(a) AS y RETURN y" = .ok query
        ∧ Plan.lower Plan.acquaintances.catalog query = .ok lowered
        ∧ treeText lowered.tree lowered.vars = .error (.missingSupplier .value "a" 1) := by
  have isWritten : ((written? Plan.acquaintances.catalog
      "MATCH (a:Person) WITH id(a) AS y RETURN y".toList).any fun
      | .error error => error = .missingSupplier .value "a" 1
      | .ok _ => false) = true := by
    rw [String.toList_ofList]
    decide +kernel
  obtain ⟨result, isWritten, fails⟩ := (Option.any_eq_true _ _).mp isWritten
  obtain ⟨query, lowered, parsed, lowers, text⟩ := exists_of_written? isWritten
  cases result with
  | ok => cases fails
  | error error => exact ⟨query, lowered, parsed, lowers, by rw [text, of_decide_eq_true fails]⟩

end CypherSql.Sql
