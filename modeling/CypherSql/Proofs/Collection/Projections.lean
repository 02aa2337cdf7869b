import CypherSql.Proofs.Collection.Patterns
import CypherSql.Proofs.ParsedQueries

/-! The walk through the projections of a query. A projection closes a scope with items that refer
to what is in reach, and the names it makes visible stand for what its items pass on.
-/

namespace CypherSql.Plan

open Cypher (Projection ProjectionItem)

namespace Walk

/-- The variable is in reach where the walk is. -/
def Reach (walk : Walk) (id : VarId) : Prop :=
  InReach walk.vars walk.scope (itemsBefore walk.models walk.scope) (clauseIds walk.clauses) id

/-- An item projects what is in reach of the open scope. -/
def Holds (walk : Walk) (kind : ScopeKind) (item : Item) : Prop :=
  item.Scoped walk.vars walk.scope (itemsBefore walk.models walk.scope)
    (clauseIds walk.clauses) kind

/-- A place behind some items of a projection, with the names that they make visible: the open
scope is the same, the items are scoped, and each name stands for a variable that one projects.
-/
structure Projects (walk : Walk) (kind : ScopeKind) (items : List Item) (next : Visible)
    (later : Walk)
    : Prop where
  sound : later.Sound
  same
    : later
      = { walk with vars := later.vars, naming := later.naming, declared := later.declared }
  inScope : ∀ item ∈ items, later.Holds kind item
  namedOnce : (namedIds items).Nodup
  entries : ∀ entry ∈ next.entries, ∃ item ∈ items, item.projected? = some entry.2

theorem Sound.reach_visible {walk : Walk} (sound : walk.Sound) {name : String} {id : VarId}
    (found : walk.visible.get? name = some id)
    : walk.Reach id := by
  have reach := ClauseWalk.Sound.visible sound found
  rwa [ClauseWalk.Reach, ClauseWalk.own, between, List.append_nil] at reach

/-- An expression that is resolved between two clauses refers to what is in reach. -/
theorem Sound.resolve {walk : Walk} (sound : walk.Sound) (expr : Cypher.Expr)
    : Safely (Expr.Over walk.Reach) (walk.resolve expr) :=
  resolveExpr_over (fun _ _ found => sound.reach_visible found) expr

/-- A resolved name is a variable. -/
theorem resolve_var (walk : Walk) (name : String)
    : Safely (fun expr => ∃ id, expr = .var id) (walk.resolve (.var name)) := by
  simp only [Walk.resolve, resolveExpr]
  cases walk.visible.get? name with
  | none => simp [Cause.category]
  | some id => simp

/-- Taking an item declares one variable, for what it projects or for its column. -/
theorem takeItem_declares {walk : Walk} {kind : ScopeKind} {next : Visible} {item : ProjectionItem}
    {result : Item × Visible × Walk} (succeeded : walk.takeItem kind next item = .ok result)
    : ∃ base name definition,
        ((∃ expr, definition = .projected expr none) ∨ ∃ column, definition = .temporary column)
        ∧ result.2.2 = (walk.declare base fun _ => (name, definition)).2 := by
  obtain ⟨expr, -, succeeded⟩ := bind_eq_ok.mp succeeded
  dsimp only [declareColumn] at succeeded
  split at succeeded
  · split at succeeded
    · cases succeeded
    · cases succeeded
      exact ⟨_, _, _, .inl ⟨_, rfl⟩, rfl⟩
  · split at succeeded
    · cases succeeded
    · cases succeeded
      exact ⟨_, _, _, .inr ⟨_, rfl⟩, rfl⟩
  · cases succeeded
  · cases succeeded
    exact ⟨_, _, _, .inr ⟨_, rfl⟩, rfl⟩

namespace Projects

variable {walk later : Walk} {kind : ScopeKind} {items : List Item} {next : Visible}

/-- A declaration keeps what holds of the items so far, and its own variable is not among them. -/
theorem declare (projects : walk.Projects kind items next later)
    {make : VarId → String × Definition} {declared : VarId × Walk}
    (declares : later.Declares make declared)
    (dependencies
      : ∀ dep ∈ (make declared.1).2.dependencies declared.1, (later.vars.get? dep).isSome)
    (linked : (make declared.1).2.Linked later.vars)
    (unresolved : (make declared.1).2.Unresolved)
    : walk.Projects kind items next declared.2
      ∧ (∀ id, later.Reach id → declared.2.Reach id)
      ∧ .named declared.1 ∉ items := by
  have declaresHere : later.between.walk.Declares make declared := declares
  have sound := ClauseWalk.Sound.declare projects.sound declaresHere dependencies linked unresolved
  obtain ⟨order, ordered⟩ := ClauseWalk.Sound.ordered projects.sound
  obtain ⟨orderLater, orderedLater⟩ := sound.ordered
  have grows := declaresHere.advances.grows
  have same
      : declared.2
        = { later with
            vars := declared.2.vars
            naming := declared.2.naming
            declared := declared.2.declared } := by
    conv => lhs; rw [declares.later]
    conv => rhs; rw [declares.later]
  refine ⟨?_, ?_, ?_⟩
  · refine {
      sound := sound
      same := ?_
      inScope := ?_
      namedOnce := projects.namedOnce
      entries := projects.entries
    }
    · rw [same, projects.same]
    · intro item member
      have old := (projects.inScope item member).grow grows ordered orderedLater
      rw [same]
      exact old
  · intro id reach
    have old := InReach.grow grows ordered orderedLater reach
    rw [same]
    exact old
  · intro member
    obtain ⟨var, expr, type, found, -⟩ := projects.inScope _ member
    rw [declares.new] at found
    cases found

/-- An item may follow if it is scoped, its variable is new and its name stands for it. -/
theorem concat (projects : walk.Projects kind items next later) {item : Item}
    (holds : later.Holds kind item) (new : ∀ id, item = .named id → item ∉ items)
    {visible : Visible}
    (entries
      : ∀ entry ∈ visible.entries, entry ∈ next.entries ∨ item.projected? = some entry.2)
    : walk.Projects kind (items ++ [item]) visible later := by
  refine { projects with
    inScope := ?_
    namedOnce := ?_
    entries := ?_
  }
  · intro other member
    rcases List.mem_append.mp member with old | last
    · exact projects.inScope other old
    · exact List.mem_singleton.mp last ▸ holds
  · cases item with
    | unnamed expr column => simpa [namedIds] using projects.namedOnce
    | named id =>
        have absent : id ∉ namedIds items := fun member => new id rfl (mem_namedIds.mp member)
        simp only [namedIds, List.filterMap_append, List.filterMap_cons, List.filterMap_nil] at *
        refine List.nodup_append.mpr ⟨projects.namedOnce, by simp, ?_⟩
        intro other member last single
        rintro rfl
        exact absent (List.mem_singleton.mp single ▸ member)
  · intro entry member
    rcases entries entry member with old | new
    · obtain ⟨other, listed, found⟩ := projects.entries entry old
      exact ⟨other, List.mem_append_left _ listed, found⟩
    · exact ⟨item, by simp, new⟩

/-- A variable that names an expression in reach may be projected. -/
theorem addNamed (projects : walk.Projects kind items next later) {name : String} {expr : Expr}
    (isOver : expr.Over later.Reach)
    {declared : VarId × Walk}
    (declares : later.Declares (fun _ => (name, .projected expr none)) declared)
    : walk.Projects kind (items ++ [.named declared.1]) (next.insert name declared.1)
        declared.2 := by
  have references : ∀ dep ∈ expr.references, (later.vars.get? dep).isSome :=
    fun dep member => (isOver.of_mem_references member).isSome
  obtain ⟨kept, reach, new⟩ := projects.declare declares references trivial rfl
  have found := declares.get? declared.1
  rw [if_pos rfl] at found
  refine kept.concat ?_ (fun id same => same ▸ new) ?_
  · refine ⟨_, expr, none, found, ?_, rfl, isOver.mono reach⟩
    rw [declares.later]
  · intro entry member
    rcases Visible.mem_entries_insert member with rfl | old
    · exact .inr rfl
    · exact .inl old

/-- An expression in reach may be projected without a name, with a column of its own. In a `WITH`
it has to be a variable.
-/
theorem addUnnamed (projects : walk.Projects kind items next later) {column : String} {expr : Expr}
    (isOver : expr.Over later.Reach) (isVar : kind = .withClause → ∃ id, expr = .var id)
    {visible : Visible}
    (entries
      : ∀ entry ∈ visible.entries, entry ∈ next.entries ∨ expr = .var entry.2)
    : walk.Projects kind (items ++ [.unnamed expr (later.declareColumn column).1]) visible
        (later.declareColumn column).2 := by
  have declares : later.Declares (fun _ => (column, .temporary column))
      (later.declareColumn column) :=
    Walk.declare_declares (ClauseWalk.Sound.used projects.sound) _ _
  obtain ⟨kept, reach, -⟩ := projects.declare declares (by simp [Definition.dependencies]) trivial
    trivial
  have found := declares.get? (later.declareColumn column).1
  rw [if_pos rfl] at found
  refine kept.concat ?_ ?_ ?_
  · exact ⟨isOver.mono reach, isVar, column, VarTable.definition?_of_get? found⟩
  · simp
  · intro entry member
    refine (entries entry member).imp_right fun same => ?_
    rw [same]
    rfl

/-- An item is taken safely where its names are visible. -/
theorem takeItem (projects : walk.Projects kind items next later) (item : ProjectionItem)
    : Safely (fun result => walk.Projects kind (items ++ [result.1]) result.2.1 result.2.2)
        (later.takeItem kind next item) := by
  unfold Walk.takeItem
  obtain ⟨expr, aliasName, text⟩ := item
  have resolves : Safely (fun resolved =>
      resolved.Over later.Reach ∧ ∀ name, expr = .var name → ∃ id, resolved = .var id)
      (later.resolve expr) := by
    refine (projects.sound.resolve expr).and ?_
    cases expr with
    | var name => exact (later.resolve_var name).mono fun resolved isVar _ _ => isVar
    | _ => exact (projects.sound.resolve _).mono fun _ _ name same => nomatch same
  refine resolves.bind ?_
  rintro resolved ⟨isOver, isVar⟩
  dsimp only
  split
  · rename_i name
    split
    · simp [Cause.category]
    · exact projects.addNamed isOver
        (Walk.declare_declares (ClauseWalk.Sound.used projects.sound) name _)
  · rename_i name
    split
    · simp [Cause.category]
    · obtain ⟨id, rfl⟩ := isVar name rfl
      refine projects.addUnnamed isOver (fun _ => ⟨id, rfl⟩) fun entry member => ?_
      rcases Visible.mem_entries_insert member with rfl | old
      · exact .inr rfl
      · exact .inl old
  · simp [Cause.category]
  · exact projects.addUnnamed isOver (fun impossible => nomatch impossible) fun entry => .inl

/-- The items of a projection are taken safely, by induction over them. -/
theorem takeItems (projects : walk.Projects kind items next later) (rest : List ProjectionItem)
    : Safely (fun result =>
          walk.Projects kind (items ++ result.1) result.2.1 result.2.2
          ∧ result.1.length = rest.length)
        (later.takeItems kind next rest) := by
  induction rest generalizing items next later with
  | nil => exact ⟨by simpa using projects, rfl⟩
  | cons item rest ih =>
      refine (projects.takeItem item).bind fun ⟨taken, visible, place⟩ holds => ?_
      refine (ih holds).bind fun ⟨others, last, final⟩ ⟨all, length⟩ => ?_
      exact ⟨by simpa using all, by simpa using length⟩

end Projects

/-- Nothing is projected at the start of a projection. -/
theorem Sound.projects {walk : Walk} (sound : walk.Sound) (kind : ScopeKind)
    : walk.Projects kind [] .none walk :=
  ⟨sound, rfl, by simp, by simp [namedIds], by simp [Visible.none]⟩

end Walk

theorem Visible.mem_entries_of_get? {visible : Visible} {name id : String}
    (found : visible.get? name = some id)
    : (name, id) ∈ visible.entries :=
  mem_of_lookup found

/-- The items before a scope do not change with the scopes from there on. -/
theorem itemsBefore_append {models more : List ScopeModel} {index : Nat}
    (within : index ≤ models.length)
    : itemsBefore (models ++ more) index = itemsBefore models index := by
  cases index with
  | zero => rfl
  | succ index => simp only [itemsBefore, List.getElem?_append_left within]

@[simp]
theorem itemsBefore_concat (models : List ScopeModel) (model : ScopeModel)
    : itemsBefore (models ++ [model]) (models.length + 1) = model.items := by
  simp [itemsBefore]

/-- A model may follow others if it is scoped behind them. -/
theorem ModelsScoped.concat {vars : VarTable} {models : List ScopeModel} {model : ScopeModel}
    (inScope : ModelsScoped vars models)
    (last : model.Scoped vars models.length (itemsBefore models models.length))
    : ModelsScoped vars (models ++ [model]) := by
  intro index found present
  rcases Nat.lt_trichotomy index models.length with below | only | above
  · rw [List.getElem?_append_left below] at present
    rw [itemsBefore_append (Nat.le_of_lt below)]
    exact inScope present
  · subst only
    rw [itemsBefore_append (Nat.le_refl _)]
    simp only [List.getElem?_concat_length, Option.some.injEq] at present
    exact present ▸ last
  · rw [List.getElem?_eq_none (by rw [List.length_append]; exact above)] at present
    cases present

namespace Walk

variable {walk later : Walk} {kind : ScopeKind} {items : List Item} {next : Visible}

/-- What an item of the scope projects is in reach, or is declared by an item. -/
theorem Projects.reach_or_named (projects : walk.Projects kind items next later)
    {entry : String × String} (member : entry ∈ next.entries)
    : later.Reach entry.2 ∨ .named entry.2 ∈ items := by
  obtain ⟨item, listed, found⟩ := projects.entries entry member
  have inScope := projects.inScope item listed
  cases item with
  | named id =>
      obtain rfl := Option.some.inj found
      exact .inr listed
  | unnamed expr column =>
      cases expr with
      | var id =>
          obtain rfl := Option.some.inj found
          exact .inl (Expr.over_var.mp inScope.1)
      | _ => simp [Item.projected?] at found

/-- Every variable that becomes visible is passed on to the next scope. -/
theorem Projects.reach_next (projects : walk.Projects kind items next later) (scope : Nat)
    (behind : later.scope < scope) {name : String} {id : VarId} (found : next.get? name = some id)
    : InReach later.vars scope items [] id := by
  obtain ⟨order, ordered⟩ := ClauseWalk.Sound.ordered projects.sound
  obtain ⟨item, listed, projected⟩ := projects.entries (name, id)
    (Visible.mem_entries_of_get? found)
  have present : (later.vars.get? id).isSome := by
    rcases projects.reach_or_named (Visible.mem_entries_of_get? found) with reach | named
    · exact reach.isSome
    · obtain ⟨var, _, _, found, -⟩ := projects.inScope _ named
      simp [found]
  obtain ⟨var, resolved⟩ := ordered.get?_resolve present
  have within := ClauseWalk.Sound.within projects.sound resolved
  exact .inherited resolved (Nat.lt_of_le_of_lt within behind) ⟨item, listed, id, projected, rfl⟩

/-- A sort key sees the projected names over those of the scope. -/
theorem Projects.sortable (projects : walk.Projects kind items next later) {name : String}
    {id : VarId} (found : (later.visible.insertAll next).get? name = some id)
    : later.Reach id ∨ .named id ∈ items := by
  rcases Visible.get?_foldl_insert found with visible | entry
  · exact .inl (projects.sound.reach_visible visible)
  · exact projects.reach_or_named entry

theorem resolveClosed_over (expr : Option Cypher.Expr)
    : Safely (fun result => ∀ closed, result = some closed → closed.Over fun _ => False)
        (resolveClosed expr) :=
  Safely.optionMapM (fun _ => resolveExpr_over (by simp) _) expr

/-- The condition of a projection refers to what the next scope inherits. -/
theorem Projects.filter (projects : walk.Projects kind items next later)
    (condition : Option Cypher.Expr)
    : Safely (fun result =>
          ∀ filter,
            result = some filter → filter.Over (InReach later.vars (later.scope + 1) items []))
        (condition.mapM (resolveExpr .collectVariables next.get?)) := by
  have known : ∀ name id,
      next.get? name = some id → InReach later.vars (later.scope + 1) items [] id :=
    fun _ _ found => projects.reach_next _ (Nat.lt_succ_self _) found
  exact Safely.optionMapM (resolveExpr_over known) condition

/-- A projection closes the scope safely with as many items as it has. -/
theorem Sound.closeScope (sound : walk.Sound) (kind : ScopeKind) (projection : Projection)
    (condition : Option Cypher.Expr)
    : Safely (fun later =>
          later.Sound
          ∧ ∃ model,
              later.models = walk.models ++ [model]
              ∧ model.kind = kind
              ∧ model.items.length = projection.items.length)
        (walk.closeScope kind projection condition) := by
  unfold Walk.closeScope
  refine ((sound.projects kind).takeItems projection.items).bind ?_
  rintro ⟨items, next, later⟩ ⟨projects, length⟩
  simp only [List.nil_append] at projects length
  have scope : later.scope = later.models.length := ClauseWalk.Sound.scope projects.sound
  refine @Safely.bind _ _ (fun keys : List SortKey => ∀ key ∈ keys, key.expr.Over fun id =>
    later.Reach id ∨ .named id ∈ items) _ _ _ ?_ fun orderBy sorted => ?_
  · refine Safely.mapM_all fun key _ => ?_
    exact (resolveExpr_over (fun _ _ found => projects.sortable found) key.expr).bind
      fun expr isOver => isOver
  refine (resolveClosed_over projection.skip).bind fun skip closedSkip => ?_
  refine (resolveClosed_over projection.limit).bind fun limit closedLimit => ?_
  refine (projects.filter condition).bind fun filter inReach => ?_
  -- Resolving the projection adds variables to the walk, and closes no scope yet.
  have models : later.models = walk.models := by rw [projects.same]
  refine ⟨?_, _, by rw [models], rfl, length⟩
  have open' : later.between.Sound := projects.sound
  have model : ScopeModel.Scoped later.vars later.models.length
      (itemsBefore later.models later.models.length)
      { kind, clauses := later.clauses, items, distinct := projection.distinct, orderBy, skip,
        limit, filter := later.filter } := by
    rw [← scope]
    exact {
      clauses := open'.clauses
      filter := open'.filter
      items := projects.inScope
      namedOnce := projects.namedOnce
      orderBy := sorted
      skip := closedSkip
      limit := closedLimit
    }
  exact {
    inOrder := open'.inOrder
    used := open'.used
    linked := open'.linked
    unresolved := open'.unresolved
    scope := by simp [between]
    within := fun found => Nat.le_succ_of_le (scope ▸ open'.within found)
    models := ModelsScoped.concat open'.models model
    clauses := ⟨by simp [between], by simp [between, clauseIds]⟩
    current := between_clause_scoped _ _ _ _ _
    distinct := by simp [between, ClauseWalk.own, clauseIds]
    visible := by
      intro name id found
      have reach := projects.reach_next (later.models.length + 1) (by omega) found
      simpa [between, ClauseWalk.Reach, ClauseWalk.inherited, ClauseWalk.own, clauseIds] using reach
    conditions := Expr.allOver_nil
    filter := by
      intro condition found
      have isOver := inReach condition found
      simpa [between, ClauseWalk.inherited, scope] using isOver
  }

end Walk

/-- Every scope but the last ends with a `WITH`, and the last one with a `RETURN`. -/
def KindsFit (models : List ScopeModel) : Prop :=
  ∃ front last,
    models = front ++ [last]
    ∧ last.kind = .returnClause
    ∧ ∀ model ∈ front, model.kind = .withClause

/-- What the walk over the clauses of a query leaves: ordered and linked variables of which
nothing more is found out yet, and models of scopes that refer to what is in reach.
-/
structure Collected (vars : VarTable) (models : List ScopeModel) : Prop where
  ordered : ∃ order, vars.Ordered order
  linked : vars.Linked
  unresolved : vars.Unresolved
  inScope : ModelsScoped vars models
  kinds : KindsFit models

namespace Walk

/-- The start of the walk is sound: nothing is declared. -/
theorem sound_start : start.Sound := by
  have none (id : VarId) : VarTable.empty.get? id = none := NameMap.get?_empty id
  exact {
    inOrder :=
      ⟨by simp [start, between], by simp [start, between, none], by simp [start, between,
        none], by simp [start, between, none], by simp [start, between, none],
      fun id => by
        rw [start, between, none id]
        exact NameMap.get?_empty id⟩
    used := by simp [start, between, none]
    linked := by simp [start, between, none, VarTable.Linked]
    unresolved := by simp [start, between, none, VarTable.Unresolved]
    scope := rfl
    within := by simp [start, between, none]
    models := by simp [start, between, ModelsScoped]
    clauses := ⟨by simp [start, between], by simp [start, between, clauseIds]⟩
    current := between_clause_scoped _ _ _ _ _
    distinct := by simp [start, between, ClauseWalk.own, clauseIds]
    visible := by simp [start, between, Visible.none, Visible.get?]
    conditions := Expr.allOver_nil
    filter := by simp [start, between]
  }

/-- The walk before the `RETURN`: every scope so far ends with a `WITH` and projects something. -/
structure Ongoing (projecting : Prop) (walk : Walk) : Prop where
  sound : walk.Sound
  kinds : ∀ model ∈ walk.models, model.kind = .withClause
  items : projecting → ∀ model ∈ walk.models, model.items ≠ []

/-- The clauses of a query are taken safely, by induction over them. -/
theorem Ongoing.takeClauses {projecting : Prop} {walk : Walk} (ongoing : walk.Ongoing projecting)
    (clauses : List Cypher.Clause) (items : projecting → Cypher.ProjectItems clauses)
    : Safely (fun later =>
          later.vars.Ordered later.declared
          ∧ Collected later.vars later.models
          ∧ (projecting → ∀ model ∈ later.models, model.items ≠ []))
        (walk.takeClauses false clauses) := by
  induction clauses generalizing walk with
  | nil => simp [Walk.takeClauses, Cause.category]
  | cons clause rest ih =>
      have others (holds : projecting) : Cypher.ProjectItems rest :=
        fun clause member => items holds clause (by simp [member])
      -- A projection adds a model with as many items as it has.
      have more {model : ScopeModel} {projection : Projection}
          (projects : clause.projection? = some projection)
          (length : model.items.length = projection.items.length) (holds : projecting)
          : ∀ other ∈ walk.models ++ [model], other.items ≠ [] := by
        intro other member
        rcases List.mem_append.mp member with old | last
        · exact ongoing.items holds other old
        · obtain rfl := List.mem_singleton.mp last
          have some := items holds clause (by simp) projection projects
          rwa [← List.length_pos_iff, length, List.length_pos_iff]
      cases clause with
      | matching clause =>
          refine (ongoing.sound.takeMatch clause).bind fun later ⟨sound, models⟩ => ?_
          exact ih ⟨sound, models ▸ ongoing.kinds, models ▸ ongoing.items⟩ others
      | withItems projection condition =>
          refine (ongoing.sound.closeScope .withClause projection condition).bind ?_
          rintro later ⟨sound, model, models, kind, length⟩
          refine ih ⟨sound, ?_, fun holds => models ▸ more rfl length holds⟩ others
          intro other member
          rw [models] at member
          rcases List.mem_append.mp member with old | last
          · exact ongoing.kinds other old
          · exact List.mem_singleton.mp last ▸ kind
      | returnItems projection =>
          refine (ongoing.sound.closeScope .returnClause projection none).bind ?_
          rintro later ⟨sound, model, models, kind, length⟩
          cases rest with
          | cons _ _ => simp [Walk.takeClauses, Cause.category]
          | nil =>
              have finished : later.between.Sound := sound
              refine ⟨finished.inOrder, ?_, fun holds => models ▸ more rfl length holds⟩
              exact {
                ordered := finished.ordered
                linked := finished.linked
                unresolved := finished.unresolved
                inScope := finished.models
                kinds := ⟨walk.models, model, models, kind, ongoing.kinds⟩
              }

end Walk

/-- The variables and scopes of a query are collected safely. -/
theorem collect_safely (query : Cypher.Query)
    : Safely (fun walk =>
          walk.vars.Ordered walk.declared
          ∧ Collected walk.vars walk.models
          ∧ (Cypher.ProjectItems query.clauses → ∀ model ∈ walk.models, model.items ≠ []))
        (collect query) := by
  have ongoing : Walk.start.Ongoing (Cypher.ProjectItems query.clauses) :=
    ⟨Walk.sound_start, by simp [Walk.start], by simp [Walk.start]⟩
  exact ongoing.takeClauses query.clauses id

end CypherSql.Plan
