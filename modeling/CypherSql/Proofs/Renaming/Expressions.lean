import CypherSql.Plan.Draft
import CypherSql.Proofs.Expressions
import CypherSql.Proofs.Renaming.Names

/-! Expressions and trees under a renaming of the ids in them, and the changes of all their
expressions: changes that agree on an expression and on its renaming agree on whole trees.
-/

namespace CypherSql.Plan

/-- What is picked from images is the image of what is picked. -/
theorem filterMap_image {α γ : Type} {pick : α → Option γ} {f : α → α} {g : γ → γ}
    (same : ∀ item, pick (f item) = (pick item).map g) (items : List α)
    : (items.map f).filterMap pick = (items.filterMap pick).map g := by
  rw [List.filterMap_map, List.map_filterMap]
  exact List.filterMap_congr fun item _ => same item

/-- Images are split as what they are images of. -/
theorem partition_image {α : Type} {f : α → α} {p q : α → Bool} (same : ∀ item, q (f item) = p item)
    (items : List α)
    : (items.map f).partition q = ((items.partition p).1.map f, (items.partition p).2.map f) := by
  have composed : q ∘ f = p := funext same
  have negated : (not ∘ q) ∘ f = not ∘ p := congrArg (not ∘ ·) composed
  simp only [List.partition_eq_filter_filter, List.filter_map, composed, negated]

namespace Expr

mutual

/-- The expression with each variable under its new id. -/
def rename (ρ : Renaming) : Expr → Expr
  | .literal value => .literal value
  | .star => .star
  | .parameter name => .parameter name
  | .var id => .var (ρ id)
  | .column id name => .column (ρ id) name
  | .property base key => .property (base.rename ρ) key
  | .unary op operand => .unary op (operand.rename ρ)
  | .binary op left right => .binary op (left.rename ρ) (right.rename ρ)
  | .list items => .list (renameAll ρ items)
  | .map entries => .map (renameEntries ρ entries)
  | .aggregate function distinct args => .aggregate function distinct (renameAll ρ args)
  | .call name args => .call name (renameAll ρ args)

/-- Several expressions with each variable under its new id. -/
def renameAll (ρ : Renaming) : List Expr → List Expr
  | [] => []
  | e :: es => e.rename ρ :: renameAll ρ es

/-- Several entries with each variable in their values under its new id. -/
def renameEntries (ρ : Renaming) : List (String × Expr) → List (String × Expr)
  | [] => []
  | (key, e) :: es => (key, e.rename ρ) :: renameEntries ρ es

end

variable (ρ : Renaming)

@[simp]
theorem renameAll_eq_map (exprs : List Expr) : renameAll ρ exprs = exprs.map (rename ρ) := by
  induction exprs with
  | nil => rfl
  | cons expr rest ih => rw [renameAll, ih, List.map_cons]

@[simp]
theorem renameEntries_eq_map (entries : List (String × Expr))
    : renameEntries ρ entries = entries.map fun (key, value) => (key, value.rename ρ) := by
  induction entries with
  | nil => rfl
  | cons entry rest ih =>
      obtain ⟨key, value⟩ := entry
      rw [renameEntries, ih, List.map_cons]

mutual

/-- Only equal expressions have the same renaming, by induction over the first one. -/
theorem rename_injective : ∀ {expr other : Expr}, expr.rename ρ = other.rename ρ → expr = other
  | .literal _, other, same => by cases other <;> simp_all [rename]
  | .star, other, same => by cases other <;> simp_all [rename]
  | .parameter _, other, same => by cases other <;> simp_all [rename]
  | .var _, other, same => by cases other <;> simp_all [rename]
  | .column _ _, other, same => by cases other <;> simp_all [rename]
  | .property base _, other, same => by
      cases other <;> simp only [rename, reduceCtorEq, property.injEq] at same ⊢
      exact ⟨rename_injective same.1, same.2⟩
  | .unary _ operand, other, same => by
      cases other <;> simp only [rename, reduceCtorEq, unary.injEq] at same ⊢
      exact ⟨same.1, rename_injective same.2⟩
  | .binary _ left right, other, same => by
      cases other <;> simp only [rename, reduceCtorEq, binary.injEq] at same ⊢
      exact ⟨same.1, rename_injective same.2.1, rename_injective same.2.2⟩
  | .list items, other, same => by
      cases other <;> simp only [rename, reduceCtorEq, list.injEq] at same ⊢
      exact renameAll_injective same
  | .map entries, other, same => by
      cases other <;> simp only [rename, reduceCtorEq, map.injEq] at same ⊢
      exact renameEntries_injective same
  | .aggregate _ _ args, other, same => by
      cases other <;> simp only [rename, reduceCtorEq, aggregate.injEq] at same ⊢
      exact ⟨same.1, same.2.1, renameAll_injective same.2.2⟩
  | .call _ args, other, same => by
      cases other <;> simp only [rename, reduceCtorEq, call.injEq] at same ⊢
      exact ⟨same.1, renameAll_injective same.2⟩

/-- The same for several expressions. -/
theorem renameAll_injective
    : ∀ {exprs others : List Expr}, renameAll ρ exprs = renameAll ρ others → exprs = others
  | [], others, same => by cases others <;> simp_all [renameAll]
  | expr :: rest, others, same => by
      cases others <;> simp only [renameAll, reduceCtorEq, List.cons.injEq] at same ⊢
      exact ⟨rename_injective same.1, renameAll_injective same.2⟩

/-- The same for several entries. -/
theorem renameEntries_injective
    : ∀ {entries others : List (String × Expr)},
        renameEntries ρ entries = renameEntries ρ others → entries = others
  | [], others, same => by cases others <;> simp_all [renameEntries]
  | (_, expr) :: rest, others, same => by
      rcases others with _ | ⟨⟨key, other⟩, others⟩ <;>
        simp only [renameEntries, reduceCtorEq, List.cons.injEq, Prod.mk.injEq] at same ⊢
      exact ⟨⟨same.1.1, rename_injective same.1.2⟩, renameEntries_injective same.2⟩

end

@[simp]
theorem rename_inj {expr other : Expr} : expr.rename ρ = other.rename ρ ↔ expr = other :=
  ⟨rename_injective ρ, congrArg _⟩

mutual

/-- The parts of a renamed expression are the renamed parts, by induction over the expression. -/
theorem parts_rename : ∀ expr : Expr, (expr.rename ρ).parts = expr.parts.map (rename ρ)
  | .literal _ => rfl
  | .star => rfl
  | .parameter _ => rfl
  | .var _ => rfl
  | .column _ _ => rfl
  | .property base _ => by simp [rename, parts, parts_rename base]
  | .unary _ operand => by simp [rename, parts, parts_rename operand]
  | .binary _ left right => by simp [rename, parts, parts_rename left, parts_rename right]
  | .list items => by simp only [rename, parts, partsAll_rename items, List.map_cons]
  | .map entries => by simp only [rename, parts, partsEntries_rename entries, List.map_cons]
  | .aggregate _ _ args => by simp only [rename, parts, partsAll_rename args, List.map_cons]
  | .call _ args => by simp only [rename, parts, partsAll_rename args, List.map_cons]

/-- The same for several expressions. -/
theorem partsAll_rename
    : ∀ exprs : List Expr, partsAll (renameAll ρ exprs) = (partsAll exprs).map (rename ρ)
  | [] => rfl
  | expr :: rest => by
      rw [renameAll, partsAll, parts_rename expr, partsAll_rename rest, partsAll, List.map_append]

/-- The same for several entries. -/
theorem partsEntries_rename
    : ∀ entries : List (String × Expr),
        partsEntries (renameEntries ρ entries) = (partsEntries entries).map (rename ρ)
  | [] => rfl
  | (_, expr) :: rest => by
      rw [renameEntries, partsEntries, parts_rename expr, partsEntries_rename rest, partsEntries,
        List.map_append]

end

@[simp]
theorem reference?_rename (expr : Expr) : (expr.rename ρ).reference? = expr.reference?.map ρ := by
  cases expr <;> rfl

theorem references_rename (expr : Expr)
    : expr.references.Renamed ρ (expr.rename ρ).references := by
  rw [references, references, parts_rename, filterMap_image (reference?_rename ρ)]
  exact .ofList _

mutual

/-- A renamed expression is a constant if it was one, by induction over the expression. -/
theorem isConstant_rename : ∀ expr : Expr, (expr.rename ρ).isConstant = expr.isConstant
  | .literal _ => rfl
  | .star => rfl
  | .parameter _ => rfl
  | .var _ => rfl
  | .column _ _ => rfl
  | .property _ _ => rfl
  | .unary _ _ => rfl
  | .binary _ _ _ => rfl
  | .list items => by rw [rename, isConstant, isConstant, allConstant_rename items]
  | .map entries => by rw [rename, isConstant, isConstant, allConstantEntries_rename entries]
  | .aggregate _ _ _ => rfl
  | .call _ _ => rfl

/-- The same for several expressions. -/
theorem allConstant_rename
    : ∀ exprs : List Expr, allConstant (renameAll ρ exprs) = allConstant exprs
  | [] => rfl
  | expr :: rest => by
      rw [renameAll, allConstant, allConstant, isConstant_rename expr, allConstant_rename rest]

/-- The same for several entries. -/
theorem allConstantEntries_rename
    : ∀ entries : List (String × Expr),
        allConstantEntries (renameEntries ρ entries) = allConstantEntries entries
  | [] => rfl
  | (_, expr) :: rest => by
      rw [renameEntries, allConstantEntries, allConstantEntries, isConstant_rename expr,
        allConstantEntries_rename rest]

end

theorem conjuncts_rename (expr : Expr)
    : (expr.rename ρ).conjuncts = expr.conjuncts.map (rename ρ) := by
  fun_induction conjuncts expr with
  | case1 left right ihLeft ihRight => rw [rename, conjuncts, ihLeft, ihRight, List.map_append]
  | case2 expr other =>
      cases expr with
      | binary op left right =>
          cases op with
          | and => exact absurd rfl (other left right)
          | _ => rfl
      | _ => rfl

theorem conjoin_rename (conditions : List Expr)
    : conjoin (conditions.map (rename ρ)) = (conjoin conditions).map (rename ρ) := by
  cases conditions with
  | nil => rfl
  | cons first rest =>
      simp only [conjoin, List.map_cons, Option.map_some, Option.some.injEq]
      induction rest generalizing first with
      | nil => rfl
      | cons next rest ih => exact ih (.binary .and first next)

section Parts

variable {ρ} {m : Type → Type} [Monad m] (relator : Relator m) {f g : Expr → m Expr}

mutual

/-- Changes that agree on parts and on their renamings agree on whole expressions, by induction over
the expression.
-/
theorem mapPartsM_rename
    (each : ∀ part, relator.Rel (ImageOf (rename ρ)) (f part) (g (part.rename ρ)))
    : ∀ expr : Expr, relator.Rel (ImageOf (rename ρ)) (expr.mapPartsM f)
      ((expr.rename ρ).mapPartsM g)
  | .literal _ => each _
  | .star => each _
  | .parameter _ => each _
  | .var _ => each _
  | .column _ _ => each _
  | .property base key =>
      relator.bind_image (mapPartsM_rename each base) fun base => each (.property base key)
  | .unary op operand =>
      relator.bind_image (mapPartsM_rename each operand) fun operand => each (.unary op operand)
  | .binary op left right =>
      relator.bind_image (mapPartsM_rename each left) fun left =>
        relator.bind_image (mapPartsM_rename each right) fun right => each (.binary op left right)
  | .list items =>
      relator.bind_image (mapAllPartsM_rename each items) fun items => each (.list items)
  | .map entries =>
      relator.bind_image (mapEntryPartsM_rename each entries) fun entries => each (.map entries)
  | .aggregate function distinct args =>
      relator.bind_image (mapAllPartsM_rename each args) fun args =>
        each (.aggregate function distinct args)
  | .call name args =>
      relator.bind_image (mapAllPartsM_rename each args) fun args => each (.call name args)

/-- The same for several expressions. -/
theorem mapAllPartsM_rename
    (each : ∀ part, relator.Rel (ImageOf (rename ρ)) (f part) (g (part.rename ρ)))
    : ∀ exprs : List Expr,
        relator.Rel (ImageOf (renameAll ρ)) (mapAllPartsM f exprs)
          (mapAllPartsM g (renameAll ρ exprs))
  | [] => relator.pure rfl
  | expr :: rest =>
      relator.bind_image (mapPartsM_rename each expr) fun _ =>
        relator.bind_image (mapAllPartsM_rename each rest) fun _ => relator.pure rfl

/-- The same for several entries. -/
theorem mapEntryPartsM_rename
    (each : ∀ part, relator.Rel (ImageOf (rename ρ)) (f part) (g (part.rename ρ)))
    : ∀ entries : List (String × Expr),
        relator.Rel (ImageOf (renameEntries ρ)) (mapEntryPartsM f entries)
          (mapEntryPartsM g (renameEntries ρ entries))
  | [] => relator.pure rfl
  | (_, expr) :: rest =>
      relator.bind_image (mapPartsM_rename each expr) fun _ =>
        relator.bind_image (mapEntryPartsM_rename each rest) fun _ => relator.pure rfl

end

end Parts

/-- The same for changes without effects. -/
theorem mapParts_rename {f g : Expr → Expr} (each : ∀ part, g (part.rename ρ) = (f part).rename ρ)
    (expr : Expr)
    : (expr.rename ρ).mapParts g = (expr.mapParts f).rename ρ :=
  mapPartsM_rename Relator.ofId each expr

end Expr

section Trees

variable (ρ : Renaming)

/-- The item with each variable under its new id. -/
def Item.rename : Item → Item
  | .named id => .named (ρ id)
  | .unnamed expr column => .unnamed (expr.rename ρ) (ρ column)

/-- The sort key with each variable under its new id. -/
def SortKey.rename (key : SortKey) : SortKey :=
  { key with expr := key.expr.rename ρ }

/-- The clause with each variable under its new id. -/
def ReadingClause.rename (clause : ReadingClause) : ReadingClause where
  optional := clause.optional
  ids := clause.ids.map ρ
  relationships := clause.relationships.map ρ
  condition := clause.condition.map (Expr.rename ρ)

/-- The source with each variable under its new id. -/
def FromItem.rename (item : FromItem) : FromItem :=
  { item with ids := item.ids.map ρ, pending := item.pending.map (Expr.rename ρ) }

/-- The join with each variable under its new id. -/
def Join.rename (join : Join) : Join where
  outer := join.outer
  item := join.item.rename ρ
  condition := join.condition.rename ρ

/-- The select with each variable under its new id. -/
def Select.rename (select : Select) : Select where
  fromItems := select.fromItems.map (FromItem.rename ρ)
  joins := select.joins.map (Join.rename ρ)
  conditions := select.conditions.map (Expr.rename ρ)

/-- The scope with each variable under its new id. -/
def Scope.rename (scope : Scope) : Scope where
  kind := scope.kind
  index := scope.index
  inner := scope.inner
  clauses := scope.clauses.map (ReadingClause.rename ρ)
  select := scope.select.rename ρ
  distinct := scope.distinct
  items := scope.items.map (Item.rename ρ)
  orderBy := scope.orderBy.map (SortKey.rename ρ)
  skip := scope.skip.map (Expr.rename ρ)
  limit := scope.limit.map (Expr.rename ρ)

/-- The export with its variable under its new id. -/
def Export.rename : Export → Export
  | .entity id => .entity (ρ id)
  | .scalar id => .scalar (ρ id)

/-- The subquery with each variable under its new id. -/
def Subquery.rename (subquery : Subquery) : Subquery where
  name := subquery.name
  scope := subquery.scope.rename ρ
  exports := subquery.exports.map (Export.rename ρ)

/-- The tree with each variable under its new id. -/
def Tree.rename (tree : Tree) : Tree where
  subqueries := tree.subqueries.map (Subquery.rename ρ)
  root := tree.root.rename ρ

/-- The model of a scope with each variable under its new id. -/
def ScopeModel.rename (model : ScopeModel) : ScopeModel where
  kind := model.kind
  clauses := model.clauses.map (ReadingClause.rename ρ)
  items := model.items.map (Item.rename ρ)
  distinct := model.distinct
  orderBy := model.orderBy.map (SortKey.rename ρ)
  skip := model.skip.map (Expr.rename ρ)
  limit := model.limit.map (Expr.rename ρ)
  filter := model.filter.map (Expr.rename ρ)

/-- The warning with each variable under its new id. -/
def Warning.rename : Warning → Warning
  | .constantSortKey key scope => .constantSortKey (key.rename ρ) scope

/-- Only equal items have the same renaming. -/
theorem Item.rename_injective : Function.Injective (Item.rename ρ) := by
  intro item other same
  cases item <;> cases other <;> simp_all [Item.rename]

theorem Export.rename_injective : Function.Injective (Export.rename ρ) := by
  intro item other same
  cases item <;> cases other <;> simp_all [Export.rename]

@[simp]
theorem Export.id_rename (item : Export) : (item.rename ρ).id = ρ item.id := by
  cases item <;> rfl

@[simp]
theorem Select.items_rename (select : Select)
    : (select.rename ρ).items = select.items.map (FromItem.rename ρ) := by
  simp [Select.items, Select.rename, Function.comp_def, Join.rename]

@[simp]
theorem Tree.scopes_rename (tree : Tree)
    : (tree.rename ρ).scopes = tree.scopes.map (Scope.rename ρ) := by
  simp [Tree.scopes, Tree.rename, Function.comp_def, Subquery.rename]

/-- The expressions of a renamed scope are the renamed ones of the scope. -/
theorem Scope.expressions_rename (scope : Scope)
    : (scope.rename ρ).expressions = scope.expressions.map (Expr.rename ρ) := by
  have option (value : Option Expr)
      : (value.map (Expr.rename ρ)).toList = value.toList.map (Expr.rename ρ) := by
    cases value <;> rfl
  simp only [Scope.expressions, Scope.rename, Select.items_rename, option, List.map_append]
  simp only [Select.rename, List.map_map, List.flatMap_map, List.map_flatMap]
  rw [filterMap_image (g := Expr.rename ρ), filterMap_image (g := Expr.rename ρ)]
  · rfl
  · exact fun _ => rfl
  · rintro (id | ⟨expr, column⟩) <;> rfl

/-- The variables that a renamed scope declares are the renamed ones. -/
theorem Scope.declared_rename (scope : Scope)
    : (scope.rename ρ).declared = scope.declared.map ρ := by
  refine filterMap_image ?_ scope.items
  rintro (id | ⟨expr, column⟩) <;> rfl

@[simp]
theorem FromItem.supplies_rename (item : FromItem) (id : VarId)
    : (item.rename ρ).supplies (ρ id) = item.supplies id := by
  simp only [FromItem.supplies, FromItem.rename, List.mem_map_of_injective ρ.injective]

@[simp]
theorem FromItem.tableVar?_rename (item : FromItem)
    : (item.rename ρ).tableVar? = item.tableVar?.map ρ := by
  obtain ⟨source, table, ids, clause, optional, pending⟩ := item
  rcases source with _ | source <;> rcases ids with _ | ⟨id, _ | ⟨other, rest⟩⟩ <;> rfl

/-- A renamed item has a fault if the item has one. -/
theorem FromItem.fault?_rename (needsTable : Bool) (item : FromItem)
    : ((item.rename ρ).fault? needsTable).isSome = (item.fault? needsTable).isSome := by
  obtain ⟨source, table, ids, clause, optional, pending⟩ := item
  rcases source with _ | source <;> rcases table with _ | table <;>
    rcases ids with _ | ⟨id, _ | ⟨other, rest⟩⟩ <;> cases needsTable <;> rfl

end Trees

section Changes

variable {ρ : Renaming} {m : Type → Type} [Monad m] (relator : Relator m)

section Scopes

variable {f g : Expr → m Expr}

theorem Item.mapExprsM_rename
    (each : ∀ expr, relator.Rel (ImageOf (Expr.rename ρ)) (f expr) (g (expr.rename ρ)))
    (item : Item)
    : relator.Rel (ImageOf (Item.rename ρ)) (item.mapExprsM f) ((item.rename ρ).mapExprsM g) := by
  cases item with
  | named id => exact relator.pure rfl
  | unnamed expr column => exact relator.bind_image (each expr) fun changed => relator.pure rfl

variable [LawfulMonad m]

theorem FromItem.mapExprsM_rename
    (each : ∀ expr, relator.Rel (ImageOf (Expr.rename ρ)) (f expr) (g (expr.rename ρ)))
    (item : FromItem)
    : relator.Rel (ImageOf (FromItem.rename ρ)) (item.mapExprsM f) ((item.rename ρ).mapExprsM g) :=
  relator.bind_image (relator.mapM (Expr.rename ρ) (Expr.rename ρ) fun expr _ => each expr) fun _ =>
    relator.pure rfl

theorem Join.mapExprsM_rename
    (each : ∀ expr, relator.Rel (ImageOf (Expr.rename ρ)) (f expr) (g (expr.rename ρ)))
    (join : Join)
    : relator.Rel (ImageOf (Join.rename ρ)) (join.mapExprsM f) ((join.rename ρ).mapExprsM g) := by
  refine relator.bind_image (each join.condition) fun condition => ?_
  refine relator.bind_image (FromItem.mapExprsM_rename relator each join.item) fun item => ?_
  exact relator.pure rfl

end Scopes

variable [LawfulMonad m]

/-- Changes that agree on expressions and on their renamings agree on scopes. -/
theorem Scope.mapExprsM_rename {f g : Site → Expr → m Expr}
    (each : ∀ site expr, relator.Rel (ImageOf (Expr.rename ρ)) (f site expr)
      (g site (expr.rename ρ)))
    (scope : Scope)
    : relator.Rel (ImageOf (Scope.rename ρ)) (scope.mapExprsM f)
      ((scope.rename ρ).mapExprsM g) := by
  have item := each ⟨scope.index, scope.kind = .withClause⟩
  have other := each ⟨scope.index, false⟩
  refine relator.bind_image (relator.mapM (Item.rename ρ) (Item.rename ρ) fun one _ => ?_)
    fun items => ?_
  · exact Item.mapExprsM_rename relator item one
  refine relator.bind_image (relator.mapM (SortKey.rename ρ) (SortKey.rename ρ) fun key _ => ?_)
    fun orderBy => ?_
  · exact relator.bind_image (other key.expr) fun expr => relator.pure rfl
  have option (value : Option Expr) :=
    relator.optionMapM (Expr.rename ρ) (Expr.rename ρ) value other
  refine relator.bind_image (option scope.skip) fun skip => ?_
  refine relator.bind_image (option scope.limit) fun limit => ?_
  refine relator.bind_image (relator.mapM (Expr.rename ρ) (Expr.rename ρ) fun expr _ => other expr)
    fun conditions => ?_
  refine relator.bind_image
    (relator.mapM (ReadingClause.rename ρ) (ReadingClause.rename ρ) fun clause _ => ?_)
    fun clauses => ?_
  · exact relator.bind_image (option clause.condition) fun condition => relator.pure rfl
  refine relator.bind_image (relator.mapM (FromItem.rename ρ) (FromItem.rename ρ) fun one _ => ?_)
    fun fromItems => ?_
  · exact FromItem.mapExprsM_rename relator other one
  refine relator.bind_image (relator.mapM (Join.rename ρ) (Join.rename ρ) fun join _ => ?_)
    fun joins => ?_
  · exact Join.mapExprsM_rename relator other join
  exact relator.pure rfl

/-- Changes that agree on scopes and on their renamings agree on trees. -/
theorem Tree.mapScopesM_rename {f g : Scope → m Scope}
    (each : ∀ scope, relator.Rel (ImageOf (Scope.rename ρ)) (f scope) (g (scope.rename ρ)))
    (tree : Tree)
    : relator.Rel (ImageOf (Tree.rename ρ)) (tree.mapScopesM f) ((tree.rename ρ).mapScopesM g) := by
  refine relator.bind_image
    (relator.mapM (Subquery.rename ρ) (Subquery.rename ρ) fun subquery _ => ?_)
    fun subqueries => ?_
  · exact relator.bind_image (each subquery.scope) fun scope => relator.pure rfl
  exact relator.bind_image (each tree.root) fun root => relator.pure rfl

end Changes

end CypherSql.Plan
