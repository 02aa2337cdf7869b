import CypherSql.Proofs.Exports.PropertyReads
import CypherSql.Proofs.VariableModel
import CypherSql.Sql.Render

/-! The columns that a subquery selects: one for each exported variable, and one for each property
of an exported node or relationship that a later scope reads. A scope finds there all that it
obtains from the subquery.
-/

namespace CypherSql.Plan

/-- A column of a subquery: for a variable, or for a property of a node or relationship. -/
inductive Column where
  | value (id : VarId)
  | property (id : VarId) (key : String)
  deriving DecidableEq

/-- The name under which a column is selected. -/
def Column.name : Column → String
  | .value id => id
  | .property id key => Sql.propertyColumn id key

/-- The properties of a variable that scopes after a given one read. -/
def VarTable.readAfter (vars : VarTable) (id : VarId) (scope : Nat) : List String :=
  ((vars.required id).entries.filter fun entry => scope < entry.2).map (·.1)

theorem VarTable.mem_readAfter {vars : VarTable} {id : VarId} {scope : Nat} {key : String}
    : key ∈ vars.readAfter id scope
      ↔ ∃ outermost, (vars.required id).get? key = some outermost ∧ scope < outermost := by
  simp [readAfter, NameMap.mem_entries]

/-- The columns of an export of a scope. -/
def Export.columns (vars : VarTable) (scope : Nat) : Export → List Column
  | .entity id => .value id :: (vars.readAfter id scope).map (.property id)
  | .scalar id => [.value id]

/-- The columns of a subquery. -/
def Subquery.columns (vars : VarTable) (subquery : Subquery) : List Column :=
  subquery.exports.flatMap (Export.columns vars subquery.scope.index)

section Columns

variable {vars : VarTable} {subquery : Subquery} {id : VarId} {key : String}

/-- Every export has a column for its variable. -/
theorem Subquery.value_mem_columns {exported : Export} (member : exported ∈ subquery.exports)
    : .value exported.id ∈ subquery.columns vars := by
  refine List.mem_flatMap.mpr ⟨exported, member, ?_⟩
  cases exported <;> simp [Export.columns, Export.id]

/-- The columns for properties are those of exported nodes and relationships that scopes after the
subquery read.
-/
theorem Subquery.property_mem_columns
    : .property id key ∈ subquery.columns vars
      ↔ .entity id ∈ subquery.exports ∧ key ∈ vars.readAfter id subquery.scope.index := by
  rw [Subquery.columns, List.mem_flatMap]
  constructor
  · rintro ⟨exported, member, inside⟩
    cases exported with
    | scalar other => simp [Export.columns] at inside
    | entity other =>
        obtain ⟨rfl, isRead⟩ : other = id ∧ key ∈ vars.readAfter id subquery.scope.index := by
          simp only [Export.columns, List.mem_cons, reduceCtorEq, false_or, List.mem_map,
            Column.property.injEq] at inside
          obtain ⟨key', isRead, rfl, rfl⟩ := inside
          exact ⟨rfl, isRead⟩
        exact ⟨member, isRead⟩
  · rintro ⟨member, isRead⟩
    exact ⟨.entity id, member, List.mem_cons_of_mem _ (List.mem_map_of_mem isRead)⟩

end Columns

end CypherSql.Plan

namespace CypherSql.Sql

open Plan (VarId VarTable Export Column bind_eq_ok Modality)

/-- The properties that are selected of a node or relationship are those that later scopes read. -/
theorem exportedProperties_eq {vars : VarTable} {id : VarId} {scope : Nat} {keys : List String}
    (succeeded : exportedProperties vars id scope = .ok keys)
    : keys = vars.readAfter id scope := by
  unfold exportedProperties at succeeded
  rw [VarTable.readAfter, VarTable.required]
  split at succeeded
  · rename_i node found
    obtain rfl := Except.ok.inj succeeded
    rw [found]
    rfl
  · rename_i rel found
    obtain rfl := Except.ok.inj succeeded
    rw [found]
    rfl
  · cases succeeded

/-- An export is written as its columns. -/
theorem Context.exportEntries_names {context : Context} {declared : List VarId} {exported : Export}
    {entries : List Entry} (succeeded : context.exportEntries declared exported = .ok entries)
    : entries.map (·.name) = (exported.columns context.vars context.scope).map Column.name := by
  have named {expr : Plan.Expr} {name : String} {entry : Entry}
      (succeeded : context.entry expr name = .ok entry)
      : entry.name = name := by
    obtain ⟨_, -, same⟩ := bind_eq_ok.mp succeeded
    exact (Except.ok.inj same) ▸ rfl
  have valued {id : VarId} {entry : Entry} (succeeded : context.valueEntry id = .ok entry)
      : entry.name = id := by
    obtain ⟨_, -, same⟩ := bind_eq_ok.mp succeeded
    exact (Except.ok.inj same) ▸ rfl
  cases exported with
  | entity id =>
      obtain ⟨value, isValue, succeeded⟩ := bind_eq_ok.mp succeeded
      obtain ⟨keys, found, succeeded⟩ := bind_eq_ok.mp succeeded
      obtain ⟨properties, written, same⟩ := bind_eq_ok.mp succeeded
      obtain rfl := Except.ok.inj same
      have names : properties.map (·.name) = keys.map (propertyColumn id) := by
        refine Plan.map_eq_of_forall₂ (Modality.forall₂_of_mapM_eq_ok written)
          fun key entry one => ?_
        obtain ⟨_, -, same⟩ := bind_eq_ok.mp one
        exact (Except.ok.inj same) ▸ rfl
      rw [List.map_cons, names, exportedProperties_eq found, valued isValue, Export.columns,
        List.map_cons, List.map_map]
      rfl
  | scalar id =>
      unfold Context.exportEntries at succeeded
      dsimp only at succeeded
      split at succeeded
      · obtain ⟨expr, -, succeeded⟩ := bind_eq_ok.mp succeeded
        obtain ⟨entry, isEntry, same⟩ := bind_eq_ok.mp succeeded
        obtain rfl := Except.ok.inj same
        rw [List.map_singleton, named isEntry]
        rfl
      · obtain ⟨entry, isValue, same⟩ := bind_eq_ok.mp succeeded
        obtain rfl := Except.ok.inj same
        rw [List.map_singleton, valued isValue]
        rfl

/-- The select of a subquery has the columns of its exports, in their order. -/
theorem scopeSelect_names {context : Context} {written : List (Except RenderError String)}
    {scope : Plan.Scope} {exports : List Export} {paged : Bool} {select : Select}
    (succeeded : scopeSelect context written scope (some exports) paged = .ok select)
    : select.entries.map (·.name)
      = (exports.flatMap (Export.columns context.vars context.scope)).map Column.name := by
  obtain ⟨entries, found, succeeded⟩ := bind_eq_ok.mp succeeded
  have same : select.entries = entries := by
    split at succeeded
    · cases succeeded
    · obtain ⟨_, -, succeeded⟩ := bind_eq_ok.mp succeeded
      obtain ⟨_, -, succeeded⟩ := bind_eq_ok.mp succeeded
      obtain ⟨_, -, succeeded⟩ := bind_eq_ok.mp succeeded
      dsimp only at succeeded
      split at succeeded
      · obtain ⟨_, -, succeeded⟩ := bind_eq_ok.mp succeeded
        exact (Except.ok.inj succeeded) ▸ rfl
      · obtain ⟨_, -, succeeded⟩ := bind_eq_ok.mp succeeded
        exact (Except.ok.inj succeeded) ▸ rfl
  obtain ⟨lists, each, flat⟩ := bind_eq_ok.mp found
  obtain rfl := Except.ok.inj flat
  have names := Plan.map_eq_of_forall₂ (g := fun entries : List Entry => entries.map (·.name))
    (f := fun exported => (Export.columns context.vars context.scope exported).map Column.name)
    (Modality.forall₂_of_mapM_eq_ok each) fun _ _ one => Context.exportEntries_names one
  rw [same, List.map_flatten, names, List.map_flatMap]
  rfl

end CypherSql.Sql

namespace CypherSql.Plan

/-- A query is lowered by the arrangement of its joins, the finding of exports, the simplification
of expressions and two more steps.
-/
theorem exists_of_lower {catalog : Catalog} {query : Cypher.Query} {lowered : Lowered}
    (succeeded : lower catalog query = .ok lowered)
    : ∃ start arranged exported simple,
        Draft.ofQuery query = .ok start
        ∧ runSteps catalog Step.arrangeJoins.upTo start = .ok arranged
        ∧ findExports arranged = .ok exported
        ∧ runSteps catalog [.simplifyFunctions, .simplifyProperties, .inlineConstants] exported
          = .ok simple
        ∧ runSteps catalog Step.inlineConstants.upTo start = .ok simple
        ∧ lowered.tree = (resolveNames (markProperties simple)).tree
        ∧ lowered.vars = (resolveNames (markProperties simple)).vars := by
  obtain ⟨start, begins, succeeded⟩ := bind_eq_ok.mp succeeded
  obtain ⟨last, runs, finishes⟩ := bind_eq_ok.mp succeeded
  have pipeline
      : Step.pipeline = Step.inlineConstants.upTo ++ [.markProperties, .resolveNames] := by
    decide
  have inlining : Step.inlineConstants.upTo = Step.arrangeJoins.upTo
      ++ [.findExports, .simplifyFunctions, .simplifyProperties, .inlineConstants] := by
    decide
  obtain ⟨simple, inlines, ends⟩ := QueryModel.exists_of_runSteps_append (pipeline ▸ runs)
  obtain ⟨arranged, arranges, simplifies⟩ :=
    QueryModel.exists_of_runSteps_append (inlining ▸ inlines)
  obtain ⟨exported, finds, simplifies⟩ := bind_eq_ok.mp simplifies
  refine ⟨start, arranged, exported, simple, begins, arranges, finds, simplifies, inlines, ?_⟩
  obtain rfl := Except.ok.inj ends
  unfold Draft.finish at finishes
  split at finishes
  · cases finishes
  · obtain rfl := Except.ok.inj finishes
    exact ⟨rfl, rfl⟩

/-- Once exports are found, subqueries hand over what scopes obtain. -/
theorem Draft.HandsOver.of_arranged {catalog : Catalog} {query : Cypher.Query}
    {start arranged exported : Draft} (begins : Draft.ofQuery query = .ok start)
    (arranges : runSteps catalog Step.arrangeJoins.upTo start = .ok arranged)
    (finds : findExports arranged = .ok exported)
    : exported.HandsOver := by
  obtain ⟨model, after, -⟩ := (QueryModel.ofQuery_safely query catalog).of_ok begins
  obtain ⟨refined, each, -⟩ := (after.arranged arranges).2
  exact ⟨findExports_handsOver refined each finds, Draft.findExports_vars finds ▸ refined.unmarked⟩

/-- In a lowered query, subqueries hand over what scopes obtain and the properties that are read are
marked.
-/
theorem lower_handsOver {catalog : Catalog} {query : Cypher.Query} {lowered : Lowered}
    (succeeded : lower catalog query = .ok lowered)
    : lowered.tree.HandsOver lowered.vars ∧ lowered.tree.MarksReads lowered.vars := by
  obtain ⟨start, arranged, exported, simple, begins, arranges, finds, simplifies, inlines, tree,
    vars⟩ := exists_of_lower succeeded
  obtain ⟨walk, collected, -⟩ := QueryModel.exists_of_ofQuery begins
  have coherent := coherent_of_runSteps collected begins (by decide) inlines
  have handsOver : simple.HandsOver :=
    Draft.HandsOver.lasting.simplified (.of_arranged begins arranges finds) simplifies
  rw [tree, vars]
  exact ⟨handsOver.finished, finished_marksReads coherent handsOver.unmarked⟩

/-- Subqueries select what later scopes read, and no more properties than that. The select of a
subquery has one column for each variable that it exports, and one for each property of an exported
node or relationship that some scope after it reads. Every variable that a scope obtains from a
subquery and that is no path is exported there, with the properties that the scope reads of it, be
it in its own expressions or in what it projects.
-/
theorem lower_columns {catalog : Catalog} {query : Cypher.Query} {lowered : Lowered}
    (succeeded : lower catalog query = .ok lowered)
    : (∀ subquery ∈ lowered.tree.subqueries,
          ∀ written select,
            Sql.scopeSelect
              (Sql.contextOf lowered.tree.subqueries lowered.vars subquery.scope) written
                subquery.scope (some subquery.exports) true
              = .ok select
            → select.entries.map (·.name) = (subquery.columns lowered.vars).map Column.name)
      ∧ (∀ scope ∈ lowered.tree.scopes,
          ∀ item ∈ scope.select.items,
            ∀ source,
              item.source = some source
              → ∃ subquery,
                  lowered.tree.subqueries[source]? = some subquery
                  ∧ ∀ id ∈ item.ids,
                      ¬ lowered.vars.IsPath id
                      → (∃ exported ∈ subquery.exports, exported.id = id)
                        ∧ .value id ∈ subquery.columns lowered.vars
                        ∧ (lowered.vars.IsElement id
                            → ∀ key,
                                lowered.tree.Reads lowered.vars id key scope.index
                                → .property id key ∈ subquery.columns lowered.vars))
      ∧ ∀ source subquery,
          lowered.tree.subqueries[source]? = some subquery
          → ∀ id key,
              .property id key ∈ subquery.columns lowered.vars
              → .entity id ∈ subquery.exports
                ∧ ∃ scope, source < scope ∧ lowered.tree.Reads lowered.vars id key scope := by
  obtain ⟨handsOver, marks⟩ := lower_handsOver succeeded
  refine ⟨?_, ?_, ?_⟩
  · intro subquery _ written select isSelect
    exact Sql.scopeSelect_names isSelect
  · intro scope member item listed source isSource
    obtain ⟨subquery, found, behind, exported⟩ := handsOver.subquery member listed isSource
    refine ⟨subquery, found, fun id supplied noPath => ?_⟩
    obtain ⟨export', isExport, rfl⟩ := (exported id supplied).resolve_left noPath
    refine ⟨⟨export', isExport, rfl⟩, Subquery.value_mem_columns isExport, ?_⟩
    intro isElement key isRead
    -- What a later scope reads was marked on the element that the name stands for.
    obtain ⟨outermost, required, notBefore⟩ := marks.isMarked isElement isRead
    have isEntity := handsOver.entity (List.mem_of_getElem? found) isExport isElement
    rw [Subquery.property_mem_columns, VarTable.mem_readAfter,
      handsOver.indexed.subquery_index found]
    exact ⟨isEntity, outermost, required, by omega⟩
  · intro source subquery found id key member
    obtain ⟨isEntity, isRead⟩ := Subquery.property_mem_columns.mp member
    obtain ⟨outermost, required, after⟩ := VarTable.mem_readAfter.mp isRead
    rw [handsOver.indexed.subquery_index found] at after
    exact ⟨isEntity, outermost, after, marks.isRead required⟩

/-- The query
`MATCH (a)-[r]->(b) WITH a, b, 1 AS one WITH a AS c, b.age AS age WITH c, age RETURN c.name, age`.
-/
def namesPassedOn : Cypher.Query where
  clauses :=
    [.matching
      ⟨false,
        [⟨none, ⟨some "a", [], none⟩,
          [(⟨some "r", .right, [], none, none⟩, ⟨some "b", [], none⟩)]⟩],
        none⟩,
      .withItems
        ⟨false,
          [⟨.var "a", none, "a"⟩, ⟨.var "b", none, "b"⟩, ⟨.literal (.integer 1), some "one", "1"⟩],
          [], none, none⟩
        none,
      .withItems
        ⟨false, [⟨.var "a", some "c", "a"⟩, ⟨.property (.var "b") "age", some "age", "b.age"⟩], [],
          none, none⟩
        none,
      .withItems ⟨false, [⟨.var "c", none, "c"⟩, ⟨.var "age", none, "age"⟩], [], none, none⟩ none,
      .returnItems
        ⟨false, [⟨.property (.var "c") "name", none, "c.name"⟩, ⟨.var "age", none, "age"⟩],
          [], none, none⟩]

/-- Witness: the last of three subqueries exports a node of the first one, with the property that is
read of it under another name.
-/
theorem namesPassedOn_columns
    : ∃ lowered subquery,
        lower acquaintances.catalog namesPassedOn = .ok lowered
        ∧ lowered.tree.subqueries[2]? = some subquery
        ∧ .value "a" ∈ subquery.columns lowered.vars
        ∧ .property "a" "name" ∈ subquery.columns lowered.vars
        ∧ .entity "a" ∈ subquery.exports := by
  have reached : ((lower acquaintances.catalog namesPassedOn).toOption.any fun lowered =>
      (lowered.vars.node? "a").isSome
      ∧ ⟨"a", "name", lowered.tree.root.index⟩ ∈ propertyReads lowered.tree lowered.vars
      ∧ ∃ item ∈ lowered.tree.root.select.items,
          item.source = some 2 ∧ "a" ∈ item.ids) = true := by
    decide +kernel
  obtain ⟨lowered, succeeded, reached⟩ := (Option.any_eq_true _ _).mp reached
  obtain ⟨isNode, isRead, item, listed, isSource, supplied⟩ := of_decide_eq_true reached
  have succeeded := toOption_eq_some.mp succeeded
  obtain ⟨node, isNode⟩ := Option.isSome_iff_exists.mp isNode
  have definition := VarTable.node?_eq_some.mp isNode
  obtain ⟨-, obtained, selected⟩ := lower_columns succeeded
  obtain ⟨subquery, found, columns⟩ := obtained lowered.tree.root
    (Tree.mem_scopes.mpr (.inr rfl)) item listed 2 isSource
  obtain ⟨-, value, property⟩ := columns "a" supplied (by simp [VarTable.IsPath, definition])
  have isColumn := property ⟨_, definition, rfl⟩ "name" (Tree.reads_iff.mpr isRead)
  exact ⟨lowered, subquery, succeeded, found, value, isColumn,
    (selected 2 subquery found "a" "name" isColumn).1⟩

end CypherSql.Plan
