import CypherSql.Proofs.Exports.PropertyReads
import CypherSql.Proofs.Inlining.Definitions
import CypherSql.Proofs.Inlining.Parts
import CypherSql.Proofs.Integrity.Constants

/-! What is evaluated in the scopes of a draft or by what its variables project, and rewriting it.
Constants that nothing reads are dropped at once: what is evaluated in the scopes stays, and the
constants that are kept would be kept again.
-/

namespace CypherSql.Plan

/-- The expressions that are evaluated in the scope: its own ones but for the items without a name
of a `WITH`, which are variables that it passes on.
-/
def Scope.evaluated (scope : Scope) : List Expr :=
  { scope with items := if scope.kind = ScopeKind.withClause then [] else scope.items }.expressions

/-- An item with its expression replaced. -/
def Item.mapExpr (f : Expr → Expr) : Item → Item
  | .named id => .named id
  | .unnamed expr column => .unnamed (f expr) column

/-- A scope with its expressions replaced. -/
def Scope.mapExprs (f : Site → Expr → Expr) (scope : Scope) : Scope :=
  Id.run (scope.mapExprsM fun site expr => pure (f site expr))

section Scopes

variable {f : Site → Expr → Expr}

/-- The scope as it is when its expressions are replaced. -/
theorem Scope.mapExprs_eq (scope : Scope)
    : scope.mapExprs f
      = { scope with
          items := scope.items.map (Item.mapExpr (f ⟨scope.index, scope.kind = .withClause⟩))
          orderBy := scope.orderBy.map fun key =>
            { key with expr := f ⟨scope.index, false⟩ key.expr }
          skip := scope.skip.map (f ⟨scope.index, false⟩)
          limit := scope.limit.map (f ⟨scope.index, false⟩)
          clauses := scope.clauses.map fun clause =>
            { clause with condition := clause.condition.map (f ⟨scope.index, false⟩) }
          select := {
            fromItems := scope.select.fromItems.map fun item =>
              { item with pending := item.pending.map (f ⟨scope.index, false⟩) }
            joins := scope.select.joins.map fun join =>
              { join with
                item := { join.item with pending := join.item.pending.map (f ⟨scope.index, false⟩) }
                condition := f ⟨scope.index, false⟩ join.condition }
            conditions := scope.select.conditions.map (f ⟨scope.index, false⟩) } } := by
  have perhaps (site : Site) (value : Option Expr)
      : (Option.mapM (fun expr => (pure (f site expr) : Id Expr)) value).run
        = value.map (f site) := by
    cases value <;> rfl
  have item (f : Expr → Expr) (item : Item)
      : (item.mapExprsM fun expr => (pure (f expr) : Id Expr)).run = item.mapExpr f := by
    cases item <;> rfl
  simp [Scope.mapExprs, Scope.mapExprsM, FromItem.mapExprsM, Join.mapExprsM, perhaps, item]

@[simp]
theorem Scope.index_mapExprs (scope : Scope) : (scope.mapExprs f).index = scope.index := by
  rw [Scope.mapExprs_eq]

/-- What is evaluated in the scope is replaced. -/
theorem Scope.evaluated_mapExprs (scope : Scope)
    : (scope.mapExprs f).evaluated = scope.evaluated.map (f ⟨scope.index, false⟩) := by
  simp only [Scope.evaluated, Scope.mapExprs_eq, Scope.expressions_eq, Select.items,
    List.map_append, List.map_flatMap, List.flatMap_map, List.map_filterMap, List.map_map,
    Function.comp_def,
    Option.toList_map, List.filterMap_map, List.flatMap_append]
  congr 7
  split
  · rfl
  · rename_i returns
    rw [List.filterMap_map]
    refine List.filterMap_congr fun item _ => ?_
    cases item <;> simp [Item.mapExpr, Item.expr?, returns]

/-- A scope stays as it is where all that is evaluated in it does, and what it passes on. -/
theorem Scope.mapExprs_eq_self {scope : Scope} (passed : ∀ expr, f ⟨scope.index, true⟩ expr = expr)
    (kept : ∀ expr ∈ scope.evaluated, f ⟨scope.index, false⟩ expr = expr)
    : scope.mapExprs f = scope := by
  simp only [Scope.evaluated, Scope.expressions_eq, List.forall_mem_append, List.forall_mem_map,
    Option.mem_toList] at kept
  obtain ⟨⟨⟨⟨⟨⟨⟨items, orderBy⟩, skip⟩, limit⟩, conditions⟩, clauses⟩, pending⟩, joins⟩ := kept
  have perhaps (value : Option Expr)
      (each : ∀ expr, value = some expr → f ⟨scope.index, false⟩ expr = expr)
      : value.map (f ⟨scope.index, false⟩) = value := by
    cases value with
    | none => rfl
    | some expr => rw [Option.map_some, each expr rfl]
  have waiting (item : FromItem) (listed : item ∈ scope.select.items)
      : { item with pending := item.pending.map (f ⟨scope.index, false⟩) } = item := by
    have same (expr : Expr) (waits : expr ∈ item.pending) : f ⟨scope.index, false⟩ expr = expr :=
      pending expr (List.mem_flatMap.mpr ⟨item, listed, waits⟩)
    rw [List.map_congr_left same, List.map_id']
  have projected (item : Item) (listed : item ∈ scope.items)
      : item.mapExpr (f ⟨scope.index, scope.kind = .withClause⟩) = item := by
    cases item with
    | named id => rfl
    | unnamed expr column =>
        -- What a `WITH` passes on is not evaluated in its scope, and is covered by `passed`.
        by_cases passes : scope.kind = .withClause
        · simp only [Item.mapExpr, passes, decide_true, passed]
        · have inside : expr ∈ scope.items.filterMap Item.expr? :=
            List.mem_filterMap.mpr ⟨_, listed, rfl⟩
          simp only [Item.mapExpr, passes, decide_false]
          rw [items expr (by rwa [if_neg passes])]
  have each {α : Type} {g : α → α} {list : List α} (kept : ∀ item ∈ list, g item = item)
      : list.map g = list := by
    rw [List.map_congr_left kept, List.map_id']
  have clausesKept : scope.clauses.map (fun clause =>
      { clause with condition := clause.condition.map (f ⟨scope.index, false⟩) }) = scope.clauses :=
    each fun clause listed => by
      rw [perhaps _ fun expr found => clauses expr (List.mem_filterMap.mpr ⟨clause, listed, found⟩)]
  have fromKept : scope.select.fromItems.map (fun item =>
      { item with pending := item.pending.map (f ⟨scope.index, false⟩) })
        = scope.select.fromItems :=
    each fun item listed => waiting item (List.mem_append_left _ listed)
  have joinsKept : scope.select.joins.map (fun join =>
      { join with
        item := { join.item with pending := join.item.pending.map (f ⟨scope.index, false⟩) }
        condition := f ⟨scope.index, false⟩ join.condition }) = scope.select.joins :=
    each fun join listed => by
      rw [joins join listed, waiting join.item
        (List.mem_append_right _ (List.mem_map_of_mem listed))]
  have sortKept : scope.orderBy.map
    (fun key => { key with expr := f ⟨scope.index, false⟩ key.expr })
      = scope.orderBy :=
    each fun key listed => by rw [orderBy key listed]
  rw [Scope.mapExprs_eq, each projected, perhaps _ skip, perhaps _ limit,
    each conditions, clausesKept, fromKept, joinsKept, sortKept]

end Scopes

/-- The expression is evaluated in a scope of the draft: it is one of the scope's own, or what a
variable projects that the scope declares.
-/
inductive Draft.Evaluates (draft : Draft) : Nat → Expr → Prop where
  | expression {scope expr} (member : scope ∈ draft.tree.scopes) (inside : expr ∈ scope.evaluated)
    : Evaluates draft scope.index expr
  | projection {id var expr} (found : draft.vars.get? id = some var)
    (projects : var.definition.projection? = some expr)
    : Evaluates draft var.scope expr

/-- No expression that is evaluated mentions a variable that stands for a constant of an earlier
scope.
-/
def Draft.Inlined (draft : Draft) : Prop :=
  ∀ scope expr, draft.Evaluates scope expr → ¬ expr.MentionsConstant draft.vars scope

instance (draft : Draft) : Decidable draft.Inlined :=
  decidable_of_iff
    ((∀ scope ∈ draft.tree.scopes, ∀ expr ∈ scope.evaluated,
        ¬ expr.MentionsConstant draft.vars scope.index)
      ∧ ∀ id ∈ draft.vars.ids, ∀ var ∈ draft.vars.get? id, ∀ expr ∈ var.definition.projection?,
        ¬ expr.MentionsConstant draft.vars var.scope)
    ⟨fun ⟨own, projected⟩ _ _ evaluates => by
      cases evaluates with
      | expression member inside => exact own _ member _ inside
      | projection found projects =>
          exact projected _ (VarTable.mem_ids.mpr (by rw [found]; rfl)) _ found _ projects,
    fun inlined => ⟨fun _ member _ inside => inlined _ _ (.expression member inside),
      fun _ _ _ found _ projects => inlined _ _ (.projection found projects)⟩⟩

section Drafts

variable {f : VarTable → Site → Expr → Expr} {draft : Draft}

/-- A draft in which all expressions are replaced. -/
theorem Draft.mapExprs_eq (draft : Draft)
    : draft.mapExprs f
      = { draft with
          tree := (draft.tree.mapScopesM fun scope =>
            scope.mapExprsM fun site expr => (pure (f draft.vars site expr) : Id Expr)).run
          vars := draft.vars.mapProjections f draft.vars.ids } :=
  rfl

/-- The scopes of a draft in which all expressions are replaced. -/
theorem Draft.scopes_mapExprs (draft : Draft)
    : (draft.mapExprs f).tree.scopes = draft.tree.scopes.map (·.mapExprs (f draft.vars)) := by
  have scopes := Tree.scopes_mapScopesM draft.tree fun scope : Scope =>
    scope.mapExprsM fun site expr => (pure (f draft.vars site expr) : Id Expr)
  have run := congrArg Id.run scopes
  rw [List.idRun_mapM] at run
  exact run

/-- A tree stays as it is where each of its scopes does. -/
theorem Tree.mapScopes_eq_self {tree : Tree} {f : Scope → Id Scope}
    (kept : ∀ scope ∈ tree.scopes, (f scope).run = scope)
    : (tree.mapScopesM f).run = tree := by
  have subqueries : tree.subqueries.map
    (fun subquery => { subquery with scope := (f subquery.scope).run })
      = tree.subqueries := by
    rw [List.map_congr_left fun subquery listed => by
      rw [kept _ (Tree.mem_scopes.mpr (.inl ⟨subquery, listed, rfl⟩))], List.map_id']
  have root := kept tree.root (Tree.mem_scopes.mpr (.inr rfl))
  simp [Tree.mapScopesM, subqueries, root]

/-- A draft stays as it is where each expression that is evaluated does, and what is passed on. -/
theorem Draft.mapExprs_eq_self
    (passed : ∀ scope expr, f draft.vars ⟨scope, true⟩ expr = expr)
    (kept : ∀ scope expr, draft.Evaluates scope expr → f draft.vars ⟨scope, false⟩ expr = expr)
    : draft.mapExprs f = draft := by
  have tree : (draft.tree.mapScopesM fun scope =>
      scope.mapExprsM fun site expr => (pure (f draft.vars site expr) : Id Expr)).run
        = draft.tree := by
    refine Tree.mapScopes_eq_self fun scope member => ?_
    exact Scope.mapExprs_eq_self (passed scope.index) fun expr inside =>
      kept _ _ (.expression member inside)
  have vars : draft.vars.mapProjections f draft.vars.ids = draft.vars :=
    VarTable.mapProjections_eq_self fun id _ var expr found projects =>
      kept _ _ (.projection found projects)
  rw [Draft.mapExprs_eq, tree, vars]

end Drafts

/-- The expression at a site with constants in place of variables. What a `WITH` passes on is left
as it is.
-/
def replaceConstants (vars : VarTable) (site : Site) (expr : Expr) : Expr :=
  if site.unnamedInWith then expr else expr.mapParts (inlineConstant vars site.scope)

theorem inlineConstants_eq (draft : Draft)
    : inlineConstants draft = dropConstants (draft.mapExprs replaceConstants) :=
  rfl

section Constants

variable {vars later : VarTable} {id other : VarId} {value : Expr} {scope : Nat}

theorem constant?_eq_some_iff
    : constant? vars id = some (value, scope)
      ↔ ∃ var,
          vars.get? id = some var
          ∧ var.definition.projection? = some value
          ∧ var.scope = scope
          ∧ value.isConstant = true := by
  constructor
  · intro found
    obtain ⟨var, type, present, projects, here, constant⟩ := constant?_eq_some found
    exact ⟨var, present, by rw [projects]; rfl, here, constant⟩
  · rintro ⟨var, present, projects, rfl, constant⟩
    simp [constant?, present, projects, constant]

theorem constant?_of_get?_none (absent : vars.get? id = none) : constant? vars id = none := by
  simp [constant?, absent]

theorem constant?_congr (same : later.get? id = vars.get? id)
    : constant? later id = constant? vars id := by
  rw [constant?, same, constant?]

/-- Only constants are dropped or replaced by a number. -/
structure VarTable.Drops (vars later : VarTable) : Prop where
  others : ∀ id, constant? vars id = none → later.get? id = vars.get? id
  constants
    : ∀ id value scope,
        constant? vars id = some (value, scope)
        → later.get? id = none
          ∨ ∃ kept,
              constant? later id = some (kept, scope)
                ∧ (kept = value ∨ kept = .literal (.integer 1))

theorem VarTable.Drops.threads : Threads VarTable.Drops where
  refl := fun _ => ⟨fun _ _ => rfl, fun _ value _ found => .inr ⟨value, found, .inl rfl⟩⟩
  trans := by
    intro first second third left right
    refine ⟨fun id none => ?_, fun id value scope found => ?_⟩
    · have same := left.others id none
      rw [← same]
      exact right.others id (by rwa [constant?_congr same])
    · rcases left.constants id value scope found with gone | ⟨kept, found, same⟩
      · left
        rw [right.others id (constant?_of_get?_none gone), gone]
      · refine (right.constants id kept scope found).imp_right ?_
        rintro ⟨last, found, same'⟩
        refine ⟨last, found, ?_⟩
        rcases same' with rfl | rfl
        · exact same
        · exact .inr rfl

/-- A constant, or no variable at all. -/
def VarTable.Droppable (vars : VarTable) (id : VarId) : Prop :=
  (constant? vars id).isSome ∨ vars.get? id = none

/-- What may be dropped may still be dropped after others are. -/
theorem VarTable.Drops.droppable (drops : vars.Drops later) (droppable : vars.Droppable id)
    : later.Droppable id := by
  rcases droppable with constant | absent
  · obtain ⟨⟨value, scope⟩, found⟩ := Option.isSome_iff_exists.mp constant
    rcases drops.constants id value scope found with gone | ⟨kept, found, -⟩
    · exact .inr gone
    · exact .inl (by simp [found])
  · exact .inr ((drops.others id (constant?_of_get?_none absent)).trans absent)

/-- A constant of the later table was one. -/
theorem VarTable.Drops.of_constant? (drops : vars.Drops later)
    (found : constant? later id = some (value, scope))
    : ∃ old, constant? vars id = some (old, scope)
      ∧ (value = old ∨ value = .literal (.integer 1)) := by
  cases present : constant? vars id with
  | none =>
      rw [constant?_congr (drops.others id present), present] at found
      cases found
  | some constant =>
      obtain ⟨old, there⟩ := constant
      rcases drops.constants id old there present with gone | ⟨kept, found', same⟩
      · rw [constant?_of_get?_none gone] at found
        cases found
      · obtain ⟨rfl, rfl⟩ := Prod.mk.inj (Option.some.inj (found.symm.trans found'))
        exact ⟨old, rfl, same⟩

/-- A stand-in changes no other variable. -/
theorem get?_standIn_of_ne (different : other ≠ id)
    : (standIn vars id).get? other = vars.get? other := by
  unfold standIn
  rw [VarTable.get?_refresh]
  split
  · rfl
  · rw [VarTable.get?_redefine, if_neg different]
  · rfl

/-- Nothing stands in for a variable that is not there. -/
theorem get?_standIn_of_none (absent : vars.get? id = none) : (standIn vars id).get? id = none := by
  have undefined : vars.definition? id = none := by
    rw [VarTable.definition?, absent]
    rfl
  simp [standIn, undefined, VarTable.get?_refresh, absent]

/-- A literal stands in for a constant: itself or a number. -/
theorem constant?_standIn (found : constant? vars id = some (value, scope))
    : ∃ literal,
        constant? (standIn vars id) id = some (.literal literal, scope)
        ∧ (.literal literal = value ∨ literal = .integer 1) := by
  obtain ⟨var, type, present, projects, here, constant⟩ := constant?_eq_some found
  have defined := VarTable.definition?_of_get? present
  by_cases isLiteral : ∃ literal, value = .literal literal
  · obtain ⟨literal, rfl⟩ := isLiteral
    have same : (standIn vars id).get? id = vars.get? id := by
      simp [standIn, defined, projects, VarTable.get?_refresh]
    exact ⟨literal, (constant?_congr same).trans found, .inl rfl⟩
  · have changed : (standIn vars id).get? id
        = some { var with definition := .projected (.literal (.integer 1)) type } := by
      unfold standIn
      rw [VarTable.get?_refresh, defined, projects]
      split
      · rename_i literal _ same
        obtain ⟨rfl, -⟩ := Definition.projected.inj (Option.some.inj same)
        exact absurd ⟨literal, rfl⟩ isLiteral
      · rename_i same
        obtain ⟨-, rfl⟩ := Definition.projected.inj (Option.some.inj same)
        rw [VarTable.get?_redefine_of_get? present, if_pos rfl]
      · rename_i noProjection
        exact absurd rfl (noProjection value type)
    exact ⟨.integer 1, constant?_eq_some_iff.mpr ⟨_, changed, rfl, here, rfl⟩, .inr rfl⟩

/-- Putting a number in place of a constant drops at most that. -/
theorem VarTable.Droppable.drops_standIn (droppable : vars.Droppable id)
    : vars.Drops (standIn vars id) := by
  refine ⟨fun other none => ?_, fun other value scope found => ?_⟩
  · by_cases same : other = id
    · subst same
      rcases droppable with constant | absent
      · simp [none] at constant
      · rw [get?_standIn_of_none absent, absent]
    · exact get?_standIn_of_ne same
  · right
    by_cases same : other = id
    · subst same
      obtain ⟨literal, found', same⟩ := constant?_standIn found
      exact ⟨_, found', same.imp_right fun same => by rw [same]⟩
    · exact ⟨value, (constant?_congr (get?_standIn_of_ne same)).trans found, .inl rfl⟩

theorem VarTable.Droppable.drops_remove (droppable : vars.Droppable id)
    : vars.Drops (vars.remove id) := by
  refine ⟨fun other none => ?_, fun other value scope found => ?_⟩
  · rw [get?_remove]
    split
    · rename_i same
      subst same
      rcases droppable with constant | absent
      · simp [none] at constant
      · exact absent.symm
    · rfl
  · by_cases same : other = id
    · exact .inl (by rw [get?_remove, if_pos same])
    · have kept : (vars.remove id).get? other = vars.get? other := by rw [get?_remove, if_neg same]
      exact .inr ⟨value, (constant?_congr kept).trans found, .inl rfl⟩

end Constants

/-- What a scope evaluates, and where. -/
def Scope.contents (scope : Scope) : Nat × List Expr × List Expr × List SortKey :=
  (scope.index, scope.evaluated, scope.expressions, scope.orderBy)

/-- Constants are dropped, and the scopes evaluate what they did. -/
structure Draft.Drops (draft later : Draft) : Prop where
  vars : draft.vars.Drops later.vars
  contents : later.tree.scopes.map Scope.contents = draft.tree.scopes.map Scope.contents

theorem Draft.Drops.refl (draft : Draft) : draft.Drops draft :=
  ⟨VarTable.Drops.threads.refl _, rfl⟩

theorem Draft.Drops.trans {first second third : Draft} (left : first.Drops second)
    (right : second.Drops third)
    : first.Drops third :=
  ⟨VarTable.Drops.threads.trans _ _ _ left.vars right.vars, right.contents.trans left.contents⟩

section Unproject

variable (source : Nat) (id : VarId)

theorem Scope.contents_without (scope : Scope)
    : (scope.without source id).contents = scope.contents := by
  have pending
      : (fun item : FromItem => (item.without source id).pending) = fun item => item.pending := by
    funext item
    unfold FromItem.without
    split <;> rfl
  simp only [Scope.contents, Scope.evaluated, Scope.expressions_eq, Scope.without, Select.items,
    List.flatMap_append, List.flatMap_map, pending]
  rfl

theorem Subquery.contents_unproject (subquery : Subquery)
    : (subquery.unproject id).scope.contents = subquery.scope.contents := by
  have unnamed (items : List Item)
      : (items.filter (· ≠ .named id)).filterMap Item.expr? = items.filterMap Item.expr? := by
    rw [List.filterMap_filter]
    refine List.filterMap_congr fun item _ => ?_
    cases item with
    | named other =>
        split <;> rfl
    | unnamed expr column => rfl
  cases kind : subquery.scope.kind with
  | withClause =>
      simp only [Scope.contents, Scope.evaluated, Scope.expressions_eq, Subquery.unproject,
        kind, if_true, unnamed]
  | returnClause =>
      simp only [Scope.contents, Scope.evaluated, Scope.expressions_eq, Subquery.unproject, kind,
        reduceCtorEq, if_false, unnamed]

/-- A tree evaluates the same after a subquery projects a variable no longer. -/
theorem Tree.contents_unproject (tree : Tree)
    : (tree.unproject source id).scopes.map Scope.contents = tree.scopes.map Scope.contents := by
  have modified : (tree.subqueries.modify source (·.unproject id)).map (·.scope.contents)
      = tree.subqueries.map (·.scope.contents) := by
    refine List.ext_getElem? fun position => ?_
    simp only [List.getElem?_map, List.getElem?_modify]
    split <;> cases tree.subqueries[position]? <;> simp [Subquery.contents_unproject]
  simp only [Tree.scopes, Tree.unproject, List.map_append, List.map_map,
    List.map_cons, List.map_nil, Function.comp_def, Scope.contents_without, modified]

end Unproject

variable {draft : Draft} {id : VarId}

/-- Dropping a constant drops at most that. -/
theorem dropConstant_drops (source : Nat) (droppable : draft.vars.Droppable id)
    : draft.Drops (dropConstant source draft id) := by
  unfold dropConstant
  split
  · exact .refl draft
  · split
    · exact .refl draft
    · split
      · exact ⟨droppable.drops_standIn, rfl⟩
      · exact ⟨droppable.drops_remove, Tree.contents_unproject source id draft.tree⟩

/-- Constants are dropped one after the other, by induction over them. -/
theorem foldl_dropConstant_drops (source : Nat) {ids : List VarId}
    (droppable : ∀ id ∈ ids, draft.vars.Droppable id)
    : draft.Drops (ids.foldl (dropConstant source) draft) := by
  induction ids generalizing draft with
  | nil => exact .refl draft
  | cons id rest ih =>
      have first := dropConstant_drops source (droppable id (by simp))
      exact first.trans
        (ih fun other member => first.vars.droppable (droppable other (by simp [member])))

theorem dropConstantsOf_drops (draft : Draft) (source : Nat)
    : draft.Drops (dropConstantsOf draft source) := by
  unfold dropConstantsOf
  split
  · exact .refl draft
  · exact foldl_dropConstant_drops source fun id member => .inl (List.mem_filter.mp member).2

/-- The constants of all subqueries are dropped, by induction over the subqueries. -/
theorem dropConstants_drops (draft : Draft) : draft.Drops (dropConstants draft) := by
  unfold dropConstants
  generalize List.range draft.tree.subqueries.length = sources
  induction sources generalizing draft with
  | nil => exact .refl draft
  | cons source rest ih => exact (dropConstantsOf_drops draft source).trans (ih _)

end CypherSql.Plan
