import CypherSql.Proofs.Inlining.Parts
import CypherSql.Proofs.Rendering.Trees

/-! The properties that a tree is written with. Each access asks for a source of its variable, or
for what SQL does not have where its base is no variable, and what any scope asks for is asked for
by the tree.
-/

namespace CypherSql.Plan

/-- The scopes of a tree, each with what it exports; the last one returns its items. -/
def Tree.blocks (tree : Tree) : List (Scope × Option (List Export)) :=
  tree.subqueries.map (fun subquery => (subquery.scope, some subquery.exports))
    ++ [(tree.root, none)]

theorem Tree.mem_scopes_of_blocks {tree : Tree} {scope : Scope} {exports : Option (List Export)}
    (member : (scope, exports) ∈ tree.blocks)
    : scope ∈ tree.scopes := by
  rcases List.mem_append.mp member with inner | root
  · obtain ⟨subquery, listed, same⟩ := List.mem_map.mp inner
    exact Tree.mem_scopes.mpr (.inl ⟨subquery, listed, (Prod.mk.inj same).1⟩)
  · exact Tree.mem_scopes.mpr (.inr (Prod.mk.inj (List.mem_singleton.mp root)).1)

end CypherSql.Plan

namespace CypherSql.Sql

open Plan (VarId VarTable)

/-- Writing an expression comes to a property of a base. Nothing inside a map, an unknown function
or the base of another property is written.
-/
inductive Accesses (base : Plan.Expr) (key : String) : Plan.Expr → Prop where
  | here : Accesses base key (.property base key)
  | operand {op expr} (inside : Accesses base key expr) : Accesses base key (.unary op expr)
  | left {op expr other} (inside : Accesses base key expr)
    : Accesses base key (.binary op expr other)
  | right {op expr other} (inside : Accesses base key expr)
    : Accesses base key (.binary op other expr)
  | item {items expr} (member : expr ∈ items) (inside : Accesses base key expr)
    : Accesses base key (.list items)
  | aggregated {function distinct args expr} (member : expr ∈ args)
    (inside : Accesses base key expr)
    : Accesses base key (.aggregate function distinct args)
  | argument {name args expr} (known : (ScalarFunction.ofName? name).isSome) (member : expr ∈ args)
    (inside : Accesses base key expr)
    : Accesses base key (.call name args)

/-- What an access asks for: that a source supplies its variable. SQL has no properties of anything
else.
-/
def Context.accessDemand (context : Context) : Plan.Expr → Demand
  | .var id => context.supplierDemand .property id
  | base => .feature (.propertyOf base)

section

variable {context : Context} {base expr : Plan.Expr} {key : String}

theorem mem_exprsDemands {value property : VarId → List Demand} {exprs : List Plan.Expr}
    {demand : Demand}
    : demand ∈ exprsDemands value property exprs
      ↔ ∃ expr ∈ exprs, demand ∈ exprDemands value property expr := by
  induction exprs with
  | nil => simp [exprsDemands]
  | cons expr rest ih => simp [exprsDemands, ih]

/-- Every access asks for what it needs, by induction over how it is reached. -/
theorem Accesses.demand_mem (accesses : Accesses base key expr)
    : context.accessDemand base ∈ context.demands expr := by
  unfold Context.demands
  induction accesses with
  | here => cases base <;> exact List.mem_singleton_self _
  | operand _ ih => exact ih
  | left _ ih => exact List.mem_append_left _ ih
  | right _ ih => exact List.mem_append_right _ ih
  | item member _ ih => exact mem_exprsDemands.mpr ⟨_, member, ih⟩
  | aggregated member _ ih => exact mem_exprsDemands.mpr ⟨_, member, ih⟩
  | @argument name args _ known member _ ih =>
      obtain ⟨function, known⟩ := Option.isSome_iff_exists.mp known
      rw [exprDemands, known]
      exact mem_exprsDemands.mpr ⟨_, member, ih⟩

/-- What is accessed is part of the expression, by induction over how it is reached. -/
theorem Accesses.mem_parts (accesses : Accesses base key expr)
    : .property base key ∈ expr.parts := by
  induction accesses with
  | here => exact Plan.Expr.self_mem_parts _
  | operand _ ih => exact List.mem_cons_of_mem _ ih
  | left _ ih => exact List.mem_cons_of_mem _ (List.mem_append_left _ ih)
  | right _ ih => exact List.mem_cons_of_mem _ (List.mem_append_right _ ih)
  | item member _ ih => exact List.mem_cons_of_mem _ (Plan.Expr.mem_partsAll.mpr ⟨_, member, ih⟩)
  | aggregated member _ ih =>
      exact List.mem_cons_of_mem _ (Plan.Expr.mem_partsAll.mpr ⟨_, member, ih⟩)
  | argument _ member _ ih =>
      exact List.mem_cons_of_mem _ (Plan.Expr.mem_partsAll.mpr ⟨_, member, ih⟩)

/-- Nothing is accessed in a variable by itself. -/
theorem Accesses.ne_var (accesses : Accesses base key expr) (id : VarId) : expr ≠ .var id := by
  cases accesses <;> exact Plan.Expr.noConfusion

end

namespace Context

/-- The expression that a variable projects, if it does. -/
def projections (context : Context) (id : VarId) : List Plan.Expr :=
  ((context.vars.definition? id).bind Plan.Definition.projection?).toList

/-- The expression of an export: a value that the scope itself names is computed there. -/
def exportExprs (context : Context) (declared : List VarId) : Plan.Export → List Plan.Expr
  | .entity _ => []
  | .scalar id => if id ∈ declared then context.projections id else []

/-- The expression of a returned item. -/
def returnExprs (context : Context) : Plan.Item → List Plan.Expr
  | .named id => context.projections id
  | .unnamed expr _ => [expr]

/-- The expressions of the columns of a scope. -/
def columnExprs (context : Context) (scope : Plan.Scope)
    : Option (List Plan.Export) → List Plan.Expr
  | some exports => exports.flatMap (context.exportExprs scope.declared)
  | none => scope.items.flatMap context.returnExprs

/-- The expressions that are written in a scope: those of its columns, of its conditions, and of its
sorting and cutting.
-/
def writtenExprs (context : Context) (scope : Plan.Scope) (exports : Option (List Plan.Export))
    : List Plan.Expr :=
  context.columnExprs scope exports ++ scope.select.joins.map (·.condition) ++
    scope.select.conditions ++ scope.orderBy.map (·.expr) ++ scope.limit.toList ++ scope.skip.toList

variable {context : Context} {scope : Plan.Scope} {exports : Option (List Plan.Export)}
  {base expr : Plan.Expr} {key : String} {demand : Demand} {inner : List Demand}

theorem mem_projectionDemands {id : VarId} (projects : expr ∈ context.projections id)
    (asks : demand ∈ context.demands expr)
    : demand ∈ context.projectionDemands id := by
  have found : (context.vars.definition? id).bind Plan.Definition.projection? = some expr :=
    Option.mem_toList.mp projects
  rw [projectionDemands, found]
  exact asks

/-- What a scope writes for its columns, it asks for. -/
theorem mem_entryDemands (isColumn : expr ∈ context.columnExprs scope exports)
    (asks : demand ∈ context.demands expr)
    : demand ∈ context.entryDemands scope exports := by
  cases exports with
  | some exports =>
      obtain ⟨exported, listed, inside⟩ := List.mem_flatMap.mp isColumn
      refine List.mem_flatMap.mpr ⟨exported, listed, ?_⟩
      cases exported with
      | entity id => exact absurd inside List.not_mem_nil
      | scalar id =>
          simp only [exportExprs] at inside
          simp only [exportDemands]
          by_cases declared : id ∈ scope.declared
          · rw [if_pos declared] at inside ⊢
            exact mem_projectionDemands inside asks
          · rw [if_neg declared] at inside
            exact absurd inside List.not_mem_nil
  | none =>
      obtain ⟨item, listed, inside⟩ := List.mem_flatMap.mp isColumn
      refine List.mem_flatMap.mpr ⟨item, listed, ?_⟩
      cases item with
      | named id => exact mem_projectionDemands inside asks
      | unnamed other column => exact List.mem_singleton.mp inside ▸ asks

/-- Every access in what a scope writes asks for what it needs. -/
theorem accessDemand_mem_scopeDemands (isWritten : expr ∈ context.writtenExprs scope exports)
    (accesses : Accesses base key expr)
    : context.accessDemand base ∈ context.scopeDemands inner scope exports := by
  have asks : context.accessDemand base ∈ context.demands expr := accesses.demand_mem
  simp only [writtenExprs, List.mem_append, List.mem_map, Option.mem_toList] at isWritten
  simp only [scopeDemands, pagingDemands, List.mem_append, List.mem_flatMap]
  rcases isWritten with ((((column | ⟨join, listed, rfl⟩) | condition) | ⟨sortKey, listed, rfl⟩)
    | limit) | skip
  · exact .inl (mem_entryDemands column asks)
  · exact .inr (.inr (.inl ⟨join, listed, asks⟩))
  · exact .inr (.inr (.inr (.inl ⟨expr, condition, asks⟩)))
  · refine .inr (.inr (.inr (.inr (.inl ⟨sortKey, listed, ?_⟩))))
    obtain ⟨expr, descending⟩ := sortKey
    cases expr with
    | var id => exact absurd rfl (accesses.ne_var id)
    | _ => exact asks
  · exact .inr (.inr (.inr (.inr (.inr (.inl ⟨expr, Option.mem_toList.mpr limit, asks⟩)))))
  · exact .inr (.inr (.inr (.inr (.inr (.inr ⟨expr, Option.mem_toList.mpr skip, asks⟩)))))

/-- A scope asks for what the subqueries before it ask for, if it reads one. -/
theorem mem_scopeDemands_of_inner {item : Plan.FromItem} (listed : item ∈ scope.select.fromItems)
    (reads : item.source.isSome) (asks : demand ∈ inner)
    : demand ∈ context.scopeDemands inner scope exports := by
  refine List.mem_append_right _ (List.mem_append_left _ (List.mem_flatMap.mpr ⟨item, listed, ?_⟩))
  rw [if_pos reads]
  exact asks

end Context

section Trees

variable {tree : Plan.Tree} {vars : VarTable} {scope : Plan.Scope}
  {exports : Option (List Plan.Export)} {demand : Demand} {base expr : Plan.Expr} {key : String}

/-- A scope asks for what the subqueries before it ask for: it reads the last of them. -/
theorem mem_scopeDemands_of_before (settled : tree.Settled vars) (member : scope ∈ tree.scopes)
    (asks : demand ∈ subqueryDemands tree vars (tree.subqueries.take scope.index))
    : demand
      ∈ (contextOf tree.subqueries vars scope).scopeDemands
          (subqueryDemands tree vars (tree.subqueries.take scope.index)) scope exports := by
  cases index : scope.index with
  | zero =>
      rw [index] at asks
      exact absurd asks List.not_mem_nil
  | succ source =>
      obtain ⟨item, listed, isSource⟩ :=
        ((settled.scopes scope member).reads source).mpr index.symm
      rw [← index]
      exact Context.mem_scopeDemands_of_inner listed (by simp [isSource]) asks

theorem subqueryDemands_take_succ {position : Nat} {subquery : Plan.Subquery}
    (found : tree.subqueries[position]? = some subquery)
    : subqueryDemands tree vars (tree.subqueries.take (position + 1))
      = (contextOf tree.subqueries vars subquery.scope).scopeDemands
          (subqueryDemands tree vars (tree.subqueries.take position)) subquery.scope
          (some subquery.exports) := by
  rw [List.take_add_one, found, Option.toList_some, subqueryDemands, List.foldl_append,
    List.foldl_cons, List.foldl_nil]
  rfl

/-- What is asked for up to some subquery is asked for to the end, by induction over the subqueries
after it: each reads the one before.
-/
theorem mem_treeDemands_of_before (settled : tree.Settled vars) {count : Nat}
    (within : count ≤ tree.subqueries.length)
    (asks : demand ∈ subqueryDemands tree vars (tree.subqueries.take count))
    : demand ∈ treeDemands tree vars := by
  induction remaining : tree.subqueries.length - count generalizing count with
  | zero =>
      have last : tree.root.index = count := by
        have index := settled.indexed.root_index
        omega
      have all : tree.subqueries.take tree.root.index = tree.subqueries :=
        List.take_of_length_le (by omega)
      have asked
          : demand
            ∈ (contextOf tree.subqueries vars tree.root).scopeDemands
                (subqueryDemands tree vars (tree.subqueries.take tree.root.index)) tree.root none :=
        mem_scopeDemands_of_before settled (Plan.Tree.mem_scopes.mpr (.inr rfl)) (last ▸ asks)
      rwa [all] at asked
  | succ remaining ih =>
      have found := List.getElem?_eq_getElem (show count < tree.subqueries.length by omega)
      generalize tree.subqueries[count] = subquery at found
      have member : subquery.scope ∈ tree.scopes :=
        Plan.Tree.mem_scopes.mpr (.inl ⟨subquery, List.mem_of_getElem? found, rfl⟩)
      have index := settled.indexed.subquery_index found
      have asked : demand ∈ subqueryDemands tree vars (tree.subqueries.take (count + 1)) := by
        rw [subqueryDemands_take_succ found, ← index]
        exact mem_scopeDemands_of_before settled member (index.symm ▸ asks)
      exact ih (by omega) asked (by omega)

/-- What any scope asks for by itself is asked for by the tree. -/
theorem mem_treeDemands (settled : tree.Settled vars) (member : (scope, exports) ∈ tree.blocks)
    (asks
      : ∀ inner, demand ∈ (contextOf tree.subqueries vars scope).scopeDemands inner scope exports)
    : demand ∈ treeDemands tree vars := by
  rcases List.mem_append.mp member with inner | root
  · obtain ⟨subquery, listed, same⟩ := List.mem_map.mp inner
    obtain ⟨rfl, rfl⟩ := Prod.mk.inj same
    obtain ⟨position, found⟩ := List.mem_iff_getElem?.mp listed
    have within := (List.getElem?_eq_some_iff.mp found).1
    refine mem_treeDemands_of_before settled within ?_
    rw [subqueryDemands_take_succ found]
    exact asks _
  · obtain ⟨rfl, rfl⟩ := Prod.mk.inj (List.mem_singleton.mp root)
    exact asks _

end Trees

end CypherSql.Sql
