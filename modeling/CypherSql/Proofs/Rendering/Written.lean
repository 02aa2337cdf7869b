import CypherSql.Proofs.Rendering.Selects
import CypherSql.Proofs.Rendering.Translation
import CypherSql.Sql.Render

/-! What an expression and the select of a scope are written with. What holds of every part of the
text comes from the parts of the expression: variables and properties as a whole, all other parts
one by one. The expressions of a select come from the scope and from the definitions of variables,
and its sources from the items of the scope.
-/

namespace CypherSql.Sql

open Plan (VarId)

section Parts

variable {holds : Expr → Prop} {allowed : Plan.Expr → Prop}
  {value : VarId → Except RenderError Expr}
  {property : VarId → String → Except RenderError Expr}

theorem everywhere_unaryExpr {op : UnaryOp} {operand : Expr} (here : holds (unaryExpr op operand))
    (inner : operand.Everywhere holds)
    : (unaryExpr op operand).Everywhere holds := by
  cases op <;> exact ⟨here, inner⟩

theorem everywhere_binaryExpr {op : BinaryOp} {left right : Expr}
    (here : holds (binaryExpr op left right))
    (onLeft : left.Everywhere holds) (onRight : right.Everywhere holds)
    : (binaryExpr op left right).Everywhere holds := by
  cases op
  case isIn =>
    cases right
    case array items => exact ⟨here, onLeft, onRight.2⟩
    all_goals exact ⟨here, onLeft, onRight⟩
  all_goals exact ⟨here, onLeft, onRight⟩

/-- A condition holds of what the parts of an expression are written as: of what a variable or a
property is written as everywhere, and of what any other part is written as at its top.
-/
structure Keeps (holds : Expr → Prop) (allowed : Plan.Expr → Prop)
    (value : VarId → Except RenderError Expr) (property : VarId → String → Except RenderError Expr)
    : Prop where
  values : ∀ id sql, allowed (.var id) → value id = .ok sql → sql.Everywhere holds
  properties : ∀ id key sql, property id key = .ok sql → sql.Everywhere holds
  literal : ∀ value, holds (.literal value)
  star : holds .star
  column : ∀ id name, holds (.column id name)
  parameter : ∀ name, allowed (.parameter name) → holds (.parameter name)
  unary
    : ∀ op operand sql,
        allowed (.unary op operand) → exprWith value property operand = .ok sql
          → holds (unaryExpr op sql)
  binary : ∀ op left right, holds (binaryExpr op left right)
  array : ∀ items, holds (.array items)
  aggregate : ∀ function distinct args, holds (.aggregate function distinct args)
  call : ∀ name function args, ScalarFunction.ofName? name = some function → holds
    (.call function args)

namespace Keeps

mutual

/-- The condition holds of every part of what is written, by the structure of the expression. -/
theorem everywhere (keeps : Keeps holds allowed value property)
    : ∀ (expr : Plan.Expr) (sql : Expr),
        (∀ part ∈ expr.parts, allowed part)
        → exprWith value property expr = .ok sql
        → sql.Everywhere holds
  | .literal value, _, _, written => Except.ok.inj written ▸ keeps.literal value
  | .star, _, _, written => Except.ok.inj written ▸ keeps.star
  | .parameter name, _, all, written =>
      Except.ok.inj written ▸ keeps.parameter name (all _ List.mem_cons_self)
  | .column id name, _, _, written => Except.ok.inj written ▸ keeps.column id name
  | .var id, sql, all, written => keeps.values id sql (all _ List.mem_cons_self) written
  | .property base key, sql, _, written => by
      cases base with
      | var id => exact keeps.properties id key sql written
      | _ => cases written
  | .unary op operand, sql, all, written => by
      obtain ⟨here, inside⟩ := List.forall_mem_cons.mp all
      obtain ⟨inner, operandWritten, same⟩ := Plan.bind_eq_ok.mp written
      obtain rfl := Except.ok.inj same
      exact everywhere_unaryExpr (keeps.unary op operand inner here operandWritten)
        (keeps.everywhere operand inner inside operandWritten)
  | .binary op left right, sql, all, written => by
      obtain ⟨-, inside⟩ := List.forall_mem_cons.mp all
      obtain ⟨onLeft, onRight⟩ := List.forall_mem_append.mp inside
      obtain ⟨first, leftWritten, rest⟩ := Plan.bind_eq_ok.mp written
      obtain ⟨second, rightWritten, same⟩ := Plan.bind_eq_ok.mp rest
      obtain rfl := Except.ok.inj same
      exact everywhere_binaryExpr (keeps.binary op first second)
        (keeps.everywhere left first onLeft leftWritten)
        (keeps.everywhere right second onRight rightWritten)
  | .list items, sql, all, written => by
      obtain ⟨sqls, itemsWritten, same⟩ := Plan.bind_eq_ok.mp written
      obtain rfl := Except.ok.inj same
      exact ⟨keeps.array sqls,
        keeps.everywhereAll items sqls (List.forall_mem_cons.mp all).2 itemsWritten⟩
  | .map _, _, _, written => by cases written
  | .aggregate function distinct args, sql, all, written => by
      obtain ⟨sqls, argsWritten, same⟩ := Plan.bind_eq_ok.mp written
      obtain rfl := Except.ok.inj same
      exact ⟨keeps.aggregate function distinct sqls,
        keeps.everywhereAll args sqls (List.forall_mem_cons.mp all).2 argsWritten⟩
  | .call name args, sql, all, written => by
      unfold exprWith at written
      split at written
      · cases written
      · rename_i function named
        obtain ⟨sqls, argsWritten, same⟩ := Plan.bind_eq_ok.mp written
        obtain rfl := Except.ok.inj same
        exact ⟨keeps.call name function sqls named,
          keeps.everywhereAll args sqls (List.forall_mem_cons.mp all).2 argsWritten⟩

/-- The same for several expressions. -/
theorem everywhereAll (keeps : Keeps holds allowed value property)
    : ∀ (exprs : List Plan.Expr) (sqls : List Expr),
        (∀ part ∈ Plan.Expr.partsAll exprs, allowed part)
        → exprsWith value property exprs = .ok sqls
        → Expr.EverywhereAll holds sqls
  | [], _, _, written => by
      obtain rfl := Except.ok.inj written
      trivial
  | e :: es, sqls, all, written => by
      obtain ⟨first, rest⟩ := List.forall_mem_append.mp all
      obtain ⟨sql, firstWritten, more⟩ := Plan.bind_eq_ok.mp written
      obtain ⟨others, othersWritten, same⟩ := Plan.bind_eq_ok.mp more
      obtain rfl := Except.ok.inj same
      exact ⟨keeps.everywhere e sql first firstWritten,
        keeps.everywhereAll es others rest othersWritten⟩

end

end Keeps

end Parts

/-- The names of all parameters of an expression are words. -/
def ParametersNamed (expr : Plan.Expr) : Prop :=
  ∀ name, .parameter name ∈ expr.parts → IsParameterName name

namespace Context

variable {context : Context}

/-- The names of all parameters of the definitions that names stand for are words. -/
def DefinitionsNamed (context : Context) : Prop :=
  ∀ id expr type, context.vars.definition? id = some (.projected expr type) → ParametersNamed expr

theorem keeps_isOfScope {known : VarId → Prop} {value : VarId → Except RenderError Expr}
    (values : ∀ id sql, known id → value id = .ok sql → sql.OfScope)
    : Keeps Expr.IsOfScope
        (fun part =>
          (∀ id, part = .var id → known id) ∧ ∀ name, part = .parameter name → IsParameterName name)
        value context.property where
  values id sql allowed written := values id sql (allowed.1 id rfl) written
  properties id key sql written := by
    obtain ⟨source, name, rfl⟩ := property_eq_column written
    trivial
  literal _ := trivial
  star := trivial
  column _ _ := trivial
  parameter name allowed := allowed.2 name rfl
  unary op operand sql _ _ := by cases op <;> trivial
  binary op left right := by
    cases op
    case isIn => cases right <;> trivial
    all_goals trivial
  array _ := trivial
  aggregate _ _ _ := trivial
  call name function args named := by
    exact ⟨lowerName name, mem_of_lookup named⟩

/-- What is written is an expression of a scope if that is so for each variable in it. -/
theorem ofScope_of_exprWith {known : VarId → Prop} {value : VarId → Except RenderError Expr}
    (values : ∀ id sql, known id → value id = .ok sql → sql.OfScope) {expr : Plan.Expr}
    (allKnown : ∀ id, .var id ∈ expr.parts → known id) (named : ParametersNamed expr) {sql : Expr}
    (written : exprWith value context.property expr = .ok sql)
    : sql.OfScope := by
  refine (keeps_isOfScope values).everywhere expr sql (fun part member => ⟨?_, ?_⟩) written
  · rintro id rfl
    exact allKnown id member
  · rintro name rfl
    exact named name member

/-- What a variable is written as is an expression of a scope, by induction over how often names are
followed.
-/
theorem ofScope_of_valueWithin (definitions : context.DefinitionsNamed) {times : Nat} {id : VarId}
    {sql : Expr} (written : context.valueWithin times id = .ok sql)
    : sql.OfScope := by
  induction times generalizing id sql with
  | zero =>
      rcases valueWithin_cases written with supplied | ⟨_, _, _, _, none, _⟩
      · obtain ⟨source, name, rfl⟩ := suppliedValue_eq_column supplied
        trivial
      · cases none
  | succ times ih =>
      rcases valueWithin_cases written with
        supplied | ⟨before, expr, type, definition, same, -, defined, inner, rfl⟩
      · obtain ⟨source, name, rfl⟩ := suppliedValue_eq_column supplied
        trivial
      · obtain rfl := Nat.succ.inj same
        exact ⟨trivial, ofScope_of_exprWith (fun _ _ (_ : True) => ih) (fun _ _ => trivial)
          (definitions id expr type defined) inner⟩

theorem ofScope_of_expr (definitions : context.DefinitionsNamed) {expr : Plan.Expr}
    (named : ParametersNamed expr) {sql : Expr} (written : context.expr expr = .ok sql)
    : sql.OfScope :=
  ofScope_of_exprWith (fun _ _ (_ : True) => ofScope_of_valueWithin definitions)
    (fun _ _ => trivial) named written

end Context

open Plan (VarId VarTable)

/-- The expressions of the select that a scope is written as: of its columns, of the conditions of
its joins and of its `WHERE`, and of its sorting and cutting.
-/
inductive Context.Writes (context : Context) (scope : Plan.Scope)
    (exports : Option (List Plan.Export))
    (paged : Bool)
    : Expr → Prop where
  | column {entries entry} (found : scopeEntries context scope exports = .ok entries)
    (listed : entry ∈ entries)
    : Writes context scope exports paged entry.expr
  | join {join expr} (listed : join ∈ scope.select.joins)
    (written : context.expr join.condition = .ok expr)
    : Writes context scope exports paged expr
  | condition {condition expr} (listed : condition ∈ scope.select.conditions)
    (written : context.expr condition = .ok expr)
    : Writes context scope exports paged expr
  | paging {paging expr} (isPaged : paged) (found : scopePaging context scope = .ok paging)
    (listed : expr ∈ paging.exprs)
    : Writes context scope exports paged expr

/-- The parts of a select come from those of the scope that is written as it. -/
structure SelectOf (context : Context) (written : List (Except RenderError String))
    (scope : Plan.Scope)
    (exports : Option (List Plan.Export)) (paged : Bool) (select : Select)
    : Prop where
  entries : scopeEntries context scope exports = .ok select.entries
  sources
    : List.Forall₂ (fun item source => sourceOf context.subqueries written item = .ok source)
        scope.select.fromItems select.sources
  joins
    : List.Forall₂ (fun join result => scopeJoin context written join = .ok result)
      scope.select.joins
        select.joins
  conditions
    : List.Forall₂ (fun condition expr => context.expr condition = .ok expr) scope.select.conditions
        select.conditions
  paging : (if paged then scopePaging context scope else .ok .none) = .ok select.paging

section Selects

variable {context : Context} {written : List (Except RenderError String)} {scope : Plan.Scope}
  {exports : Option (List Plan.Export)} {paged : Bool} {select : Select}

theorem selectOf_of_scopeSelect
    (selected : scopeSelect context written scope exports paged = .ok select)
    : SelectOf context written scope exports paged select := by
  obtain ⟨entries, found, selected⟩ := Plan.bind_eq_ok.mp selected
  dsimp only at selected
  split at selected
  · cases selected
  · obtain ⟨sources, readSources, selected⟩ := Plan.bind_eq_ok.mp selected
    obtain ⟨joins, readJoins, selected⟩ := Plan.bind_eq_ok.mp selected
    obtain ⟨conditions, readConditions, selected⟩ := Plan.bind_eq_ok.mp selected
    have parts {paging : Paging}
        (found' : (if paged then scopePaging context scope else .ok .none) = .ok paging)
        (same : { distinct := scope.distinct, entries, sources, joins, conditions, paging }
          = select)
        : SelectOf context written scope exports paged select :=
      same ▸
        ⟨found, Plan.Modality.forall₂_of_mapM_eq_ok readSources,
          Plan.Modality.forall₂_of_mapM_eq_ok readJoins,
          Plan.Modality.forall₂_of_mapM_eq_ok readConditions, found'⟩
    cases paged with
    | false => exact parts rfl (Except.ok.inj selected)
    | true =>
        obtain ⟨paging, readPaging, same⟩ := Plan.bind_eq_ok.mp selected
        exact parts readPaging (Except.ok.inj same)

theorem scopeJoin_eq_ok {join : Plan.Join} {result : Join}
    (joined : scopeJoin context written join = .ok result)
    : sourceOf context.subqueries written join.item = .ok result.source
      ∧ context.expr join.condition = .ok result.condition := by
  obtain ⟨source, readSource, joined⟩ := Plan.bind_eq_ok.mp joined
  obtain ⟨condition, readCondition, same⟩ := Plan.bind_eq_ok.mp joined
  obtain rfl := Except.ok.inj same
  exact ⟨readSource, readCondition⟩

namespace SelectOf

/-- The expressions of a select are those that its scope writes, whatever the subqueries are written
as.
-/
theorem mem_exprs (selected : SelectOf context written scope exports paged select) {expr : Expr}
    : expr ∈ select.exprs ↔ context.Writes scope exports paged expr := by
  simp only [Select.exprs, List.mem_append, List.mem_map]
  constructor
  · rintro (((⟨entry, listed, rfl⟩ | ⟨join, listed, rfl⟩) | listed) | listed)
    · exact .column selected.entries listed
    · obtain ⟨source, isJoin, joined⟩ := Plan.exists_mem_of_forall₂ selected.joins listed
      exact .join isJoin (scopeJoin_eq_ok joined).2
    · obtain ⟨condition, isCondition, result⟩ :=
        Plan.exists_mem_of_forall₂ selected.conditions listed
      exact .condition isCondition result
    · have found := selected.paging
      split at found
      · rename_i isPaged
        exact .paging isPaged found listed
      · rw [← Except.ok.inj found] at listed
        cases listed
  · intro writes
    cases writes with
    | column found listed =>
        obtain rfl := Except.ok.inj (found.symm.trans selected.entries)
        exact .inl (.inl (.inl ⟨_, listed, rfl⟩))
    | join listed result =>
        obtain ⟨join, isJoin, joined⟩ := Plan.exists_mem_of_forall₂ selected.joins.flip listed
        obtain rfl := Except.ok.inj (result.symm.trans (scopeJoin_eq_ok joined).2)
        exact .inl (.inl (.inr ⟨join, isJoin, rfl⟩))
    | condition listed result =>
        obtain ⟨expr, isCondition, found⟩ :=
          Plan.exists_mem_of_forall₂ selected.conditions.flip listed
        obtain rfl := Except.ok.inj (result.symm.trans found)
        exact .inl (.inr isCondition)
    | paging isPaged found listed =>
        have same := selected.paging
        rw [if_pos isPaged] at same
        obtain rfl := Except.ok.inj (found.symm.trans same)
        exact .inr listed

/-- The sources of a select are those of the items of its scope. -/
theorem origins (selected : SelectOf context written scope exports paged select)
    : List.Forall₂ (fun item source => sourceOf context.subqueries written item = .ok source)
        scope.select.items select.origins := by
  refine List.rel_append selected.sources ?_
  rw [List.forall₂_map_left_iff, List.forall₂_map_right_iff]
  exact selected.joins.imp fun join result joined => (scopeJoin_eq_ok joined).1

end SelectOf

/-- A source is a subquery that is written already, or a table. -/
theorem sourceOf_cases {subqueries : List Plan.Subquery} {item : Plan.FromItem} {source : Source}
    (read : sourceOf subqueries written item = .ok source)
    : (∃ index subquery text name,
        item.source = some index
        ∧ subqueries[index]? = some subquery
        ∧ written[index]? = some (.ok text)
        ∧ source = .subquery text name)
      ∨ ∃ table name, item.source = none ∧ item.table = some table
        ∧ source = .table table name := by
  unfold sourceOf at read
  split at read
  · cases read
  split at read
  · cases read
  cases isSource : item.source with
  | some index =>
      simp only [isSource] at read
      split at read
      · cases read
      · rename_i name _ _ result found present
        obtain ⟨text, rfl, same⟩ := Plan.bind_eq_ok.mp read
        exact .inl ⟨index, _, text, name, rfl, found, present, (Except.ok.inj same).symm⟩
      · cases read
  | none =>
      cases isTable : item.table with
      | none => simp [isSource, isTable, broken] at read
      | some table =>
          cases isVar : item.tableVar? with
          | none => simp [isSource, isTable, isVar, broken] at read
          | some id =>
              simp only [isSource, isTable, isVar] at read
              exact .inr ⟨table, id, rfl, rfl, (Except.ok.inj read).symm⟩

/-- An expression that a select may be written with: the value of a variable, a property, the name
of a column, or what an expression of the scope or the definition of a variable is written as.
-/
inductive Context.Comes (context : Context) (scope : Plan.Scope) : Expr → Prop where
  | value {id expr} (written : context.value id = .ok expr) : Comes context scope expr
  | property {id key expr} (written : context.property id key = .ok expr) : Comes context scope expr
  | label (name) : Comes context scope (.label name)
  | expression {source expr} (listed : source ∈ scope.expressions)
    (written : context.expr source = .ok expr)
    : Comes context scope expr
  | definition {id source type expr}
    (defined : context.vars.definition? id = some (.projected source type))
    (written : context.expr source = .ok expr)
    : Comes context scope expr

theorem mem_expressions {expr : Plan.Expr}
    : expr ∈ scope.expressions
      ↔ (∃ column, .unnamed expr column ∈ scope.items)
        ∨ (∃ key ∈ scope.orderBy, key.expr = expr)
        ∨ scope.skip = some expr
        ∨ scope.limit = some expr
        ∨ expr ∈ scope.select.conditions
        ∨ (∃ clause ∈ scope.clauses, clause.condition = some expr)
        ∨ (∃ item ∈ scope.select.items, expr ∈ item.pending)
        ∨ ∃ join ∈ scope.select.joins, join.condition = expr := by
  simp only [Plan.Scope.expressions, List.mem_append, List.mem_filterMap, List.mem_map,
    List.mem_flatMap, Option.mem_toList, or_assoc]
  refine or_congr_left ⟨?_, ?_⟩
  · rintro ⟨item, listed, same⟩
    cases item with
    | named id => cases same
    | unnamed other column => exact ⟨column, Option.some.inj same ▸ listed⟩
  · rintro ⟨column, listed⟩
    exact ⟨_, listed, rfl⟩

theorem definition?_of_projectedExpr {vars : VarTable} {id : VarId} {expr : Plan.Expr}
    (projected : projectedExpr vars id = .ok expr)
    : ∃ type, vars.definition? id = some (.projected expr type) := by
  unfold projectedExpr at projected
  cases defined : vars.definition? id with
  | none => simp [defined, broken] at projected
  | some definition =>
      cases definition with
      | projected other type =>
          simp only [defined, Option.bind_some, Plan.Definition.projection?] at projected
          exact ⟨type, by rw [Except.ok.inj projected]⟩
      | _ => simp [defined, Plan.Definition.projection?, broken] at projected

namespace Context

theorem entry_eq_ok {expr : Plan.Expr} {name : String} {entry : Entry}
    (made : context.entry expr name = .ok entry)
    : context.expr expr = .ok entry.expr := by
  obtain ⟨sql, written, same⟩ := Plan.bind_eq_ok.mp made
  exact Except.ok.inj same ▸ written

/-- What a name projects comes from its definition. -/
theorem comes_of_projectedExpr {id : VarId} {expr : Plan.Expr} {name : String} {entry : Entry}
    (projected : projectedExpr context.vars id = .ok expr)
    (made : context.entry expr name = .ok entry)
    : context.Comes scope entry.expr := by
  obtain ⟨type, defined⟩ := definition?_of_projectedExpr projected
  exact .definition defined (entry_eq_ok made)

theorem comes_of_valueEntry {id : VarId} {entry : Entry} (made : context.valueEntry id = .ok entry)
    : context.Comes scope entry.expr := by
  obtain ⟨sql, written, same⟩ := Plan.bind_eq_ok.mp made
  obtain rfl := Except.ok.inj same
  exact .value written

theorem comes_of_propertyEntry {id : VarId} {key : String} {entry : Entry}
    (made : context.propertyEntry id key = .ok entry)
    : context.Comes scope entry.expr := by
  obtain ⟨sql, written, same⟩ := Plan.bind_eq_ok.mp made
  obtain rfl := Except.ok.inj same
  exact .property written

theorem comes_of_returnEntry {item : Plan.Item} {entry : Entry} (listed : item ∈ scope.items)
    (made : context.returnEntry item = .ok entry)
    : context.Comes scope entry.expr := by
  cases item with
  | named id =>
      obtain ⟨expr, projected, made⟩ := Plan.bind_eq_ok.mp made
      obtain ⟨name, -, made⟩ := Plan.bind_eq_ok.mp made
      exact comes_of_projectedExpr projected made
  | unnamed expr column =>
      obtain ⟨name, -, made⟩ := Plan.bind_eq_ok.mp made
      exact .expression (mem_expressions.mpr (.inl ⟨column, listed⟩)) (entry_eq_ok made)

theorem comes_of_exportEntries {declared : List VarId} {exported : Plan.Export}
    {entries : List Entry}
    (made : context.exportEntries declared exported = .ok entries)
    : ∀ entry ∈ entries, context.Comes scope entry.expr := by
  intro entry listed
  cases exported with
  | entity id =>
      obtain ⟨key, madeKey, made⟩ := Plan.bind_eq_ok.mp made
      obtain ⟨required, -, made⟩ := Plan.bind_eq_ok.mp made
      obtain ⟨properties, madeProperties, same⟩ := Plan.bind_eq_ok.mp made
      obtain rfl := Except.ok.inj same
      rcases List.mem_cons.mp listed with rfl | isProperty
      · exact comes_of_valueEntry madeKey
      · obtain ⟨property, -, madeProperty⟩ := Plan.exists_mem_of_forall₂
          (Plan.Modality.forall₂_of_mapM_eq_ok madeProperties) isProperty
        exact comes_of_propertyEntry madeProperty
  | scalar id =>
      dsimp only [exportEntries] at made
      split at made
      · obtain ⟨expr, projected, made⟩ := Plan.bind_eq_ok.mp made
        obtain ⟨only, madeOnly, same⟩ := Plan.bind_eq_ok.mp made
        obtain rfl := Except.ok.inj same
        obtain rfl := List.mem_singleton.mp listed
        exact comes_of_projectedExpr projected madeOnly
      · obtain ⟨only, madeOnly, same⟩ := Plan.bind_eq_ok.mp made
        obtain rfl := Except.ok.inj same
        obtain rfl := List.mem_singleton.mp listed
        exact comes_of_valueEntry madeOnly

theorem comes_of_scopeEntries {entries : List Entry}
    (found : scopeEntries context scope exports = .ok entries)
    : ∀ entry ∈ entries, context.Comes scope entry.expr := by
  intro entry listed
  cases exports with
  | none =>
      obtain ⟨item, isItem, made⟩ := Plan.exists_mem_of_forall₂
        (Plan.Modality.forall₂_of_mapM_eq_ok found) listed
      exact comes_of_returnEntry isItem made
  | some exports =>
      obtain ⟨lists, made, same⟩ := Plan.bind_eq_ok.mp found
      obtain rfl := Except.ok.inj same
      obtain ⟨list, isList, inside⟩ := List.mem_flatten.mp listed
      obtain ⟨exported, -, madeList⟩ := Plan.exists_mem_of_forall₂
        (Plan.Modality.forall₂_of_mapM_eq_ok made) isList
      exact comes_of_exportEntries madeList entry inside

theorem comes_of_sortTerm {key : Plan.SortKey} {sort : Expr × Bool} (listed : key ∈ scope.orderBy)
    (made : sortTerm context scope key = .ok sort)
    : context.Comes scope sort.1 := by
  have fromExpr {descending : Bool}
      (made
        : (do
            let expr ← context.expr key.expr
            return (expr, descending)) = .ok sort)
      : context.Comes scope sort.1 := by
    obtain ⟨expr, written, same⟩ := Plan.bind_eq_ok.mp made
    obtain rfl := Except.ok.inj same
    exact .expression (mem_expressions.mpr (.inr (.inl ⟨key, listed, rfl⟩))) written
  unfold sortTerm at made
  split at made
  · split at made
    · split at made
      · obtain ⟨name, -, same⟩ := Plan.bind_eq_ok.mp made
        exact Except.ok.inj same ▸ .label name
      · exact Except.ok.inj made ▸ .label _
    · exact fromExpr made
  · exact fromExpr made

/-- What the rows are cut by is written as it is anywhere else. -/
theorem mem_cut {cut : Option Plan.Expr} {result : Option Expr}
    (made : cut.mapM context.expr = .ok result)
    {expr : Expr}
    : expr ∈ result.toList ↔ ∃ source, cut = some source ∧ context.expr source = .ok expr := by
  cases cut with
  | none =>
      obtain rfl := Except.ok.inj made
      simp
  | some source =>
      rw [Option.mapM_some, map_eq_pure_bind] at made
      obtain ⟨only, written, same⟩ := Plan.bind_eq_ok.mp made
      obtain rfl := Except.ok.inj same
      simp [written, eq_comm]

theorem comes_of_scopePaging {paging : Paging} (found : scopePaging context scope = .ok paging)
    : ∀ expr ∈ paging.exprs, context.Comes scope expr := by
  obtain ⟨orderBy, sorted, found⟩ := Plan.bind_eq_ok.mp found
  obtain ⟨limit, cut, found⟩ := Plan.bind_eq_ok.mp found
  obtain ⟨offset, skipped, same⟩ := Plan.bind_eq_ok.mp found
  obtain rfl := Except.ok.inj same
  have sorts : ∀ sort ∈ orderBy, context.Comes scope sort.1 := by
    intro sort listed
    obtain ⟨key, isKey, made⟩ := Plan.exists_mem_of_forall₂
      (Plan.Modality.forall₂_of_mapM_eq_ok sorted) listed
    exact comes_of_sortTerm isKey made
  have limits : ∀ expr ∈ limit.toList, context.Comes scope expr := by
    intro expr listed
    obtain ⟨source, isCut, written⟩ := (mem_cut cut).mp listed
    exact .expression (mem_expressions.mpr (.inr (.inr (.inr (.inl isCut))))) written
  have skips : ∀ expr ∈ offset.toList, context.Comes scope expr := by
    intro expr listed
    obtain ⟨source, isCut, written⟩ := (mem_cut skipped).mp listed
    exact .expression (mem_expressions.mpr (.inr (.inr (.inl isCut)))) written
  exact List.forall_mem_append.mpr
    ⟨List.forall_mem_append.mpr ⟨List.forall_mem_map.mpr sorts, limits⟩, skips⟩

/-- Whatever a select is written with comes from its scope or from a definition. -/
theorem Writes.comes {expr : Expr} (writes : context.Writes scope exports paged expr)
    : context.Comes scope expr := by
  cases writes with
  | column found listed => exact comes_of_scopeEntries found _ listed
  | join listed written =>
      have inScope :=
        mem_expressions.mpr (.inr (.inr (.inr (.inr (.inr (.inr (.inr ⟨_, listed, rfl⟩)))))))
      exact .expression inScope written
  | condition listed written =>
      exact .expression (mem_expressions.mpr (.inr (.inr (.inr (.inr (.inl listed)))))) written
  | paging isPaged found listed => exact comes_of_scopePaging found _ listed

/-- The expressions of a select are written with words for the names of parameters if those of its
scope and the definitions of variables are.
-/
theorem Comes.isWritable {expr : Expr} (comes : context.Comes scope expr)
    (definitions : context.DefinitionsNamed)
    (named : ∀ expr ∈ scope.expressions, ParametersNamed expr)
    : expr.IsWritable := by
  cases comes with
  | value written => exact .inl (ofScope_of_valueWithin definitions written)
  | property written =>
      obtain ⟨source, name, rfl⟩ := property_eq_column written
      exact .inl trivial
  | label name => exact .inr ⟨name, rfl⟩
  | expression listed written => exact .inl (ofScope_of_expr definitions (named _ listed) written)
  | definition defined written =>
      exact .inl (ofScope_of_expr definitions (definitions _ _ _ defined) written)

end Context

end Selects

end CypherSql.Sql
