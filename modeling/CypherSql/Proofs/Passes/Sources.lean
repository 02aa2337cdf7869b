import CypherSql.Proofs.Passes.Scopes

/-! The sources of every scope are found: the subquery before it supplies all that it inherits, and
its clauses declare the rest.
-/

namespace CypherSql.Plan

/-- Things that are added unless they are there are there, by induction over them. -/
theorem mem_foldl_new {α : Type} [DecidableEq α] {seen new : List α} {item : α}
    : item ∈ new.foldl (fun seen item => if item ∈ seen then seen else seen ++ [item]) seen
      ↔ item ∈ seen ∨ item ∈ new := by
  induction new generalizing seen with
  | nil => simp
  | cons first rest ih =>
      rw [List.foldl_cons, ih]
      split
      · rename_i member
        constructor
        · rintro (old | new)
          · exact .inl old
          · exact .inr (by simp [new])
        · rintro (old | new)
          · exact .inl old
          · rcases List.mem_cons.mp new with rfl | rest
            · exact .inl member
            · exact .inr rest
      · simp [or_assoc]

/-- The names are those that were there and those that were added. -/
theorem mem_addNew {seen ids : List VarId} {id : VarId}
    : id ∈ addNew seen ids ↔ id ∈ seen ∨ id ∈ ids :=
  mem_foldl_new

/-- Nothing is added twice, by induction over what is added. -/
theorem nodup_foldl_new {α : Type} [DecidableEq α] {seen new : List α} (distinct : seen.Nodup)
    : (new.foldl (fun seen item => if item ∈ seen then seen else seen ++ [item]) seen).Nodup := by
  induction new generalizing seen with
  | nil => exact distinct
  | cons first rest ih =>
      rw [List.foldl_cons]
      split
      · exact ih distinct
      · rename_i absent
        refine ih (List.nodup_append.mpr ⟨distinct, by simp, ?_⟩)
        intro item member last single
        rintro rfl
        exact absent (List.mem_singleton.mp single ▸ member)

/-- No name is added twice. -/
theorem nodup_addNew {seen ids : List VarId} (distinct : seen.Nodup) : (addNew seen ids).Nodup :=
  nodup_foldl_new distinct

/-- The variables that items project, resolved and without repetition. -/
def passedOn (vars : VarTable) (items : List Item) : List VarId :=
  addNew [] ((items.filterMap Item.projected?).map vars.resolve)

/-- The variables that a subquery with these items supplies. -/
def suppliedOf (vars : VarTable) (items : List Item) : List VarId :=
  addNew [] ((passedOn vars items).flatMap (withElements vars))

theorem mem_passedOn {vars : VarTable} {items : List Item} {id : VarId}
    : id ∈ passedOn vars items ↔ PassesOn vars items id := by
  simp only [passedOn, mem_addNew, List.not_mem_nil, false_or, List.mem_map, List.mem_filterMap,
    PassesOn]
  constructor
  · rintro ⟨projected, ⟨item, member, found⟩, same⟩
    exact ⟨item, member, projected, found, same⟩
  · rintro ⟨item, member, projected, found, same⟩
    exact ⟨projected, ⟨item, member, found⟩, same⟩

theorem mem_withElements (vars : VarTable) (id : VarId) : id ∈ withElements vars id := by
  unfold withElements
  split <;> simp

/-- What items pass on is supplied. -/
theorem PassesOn.mem_suppliedOf {vars : VarTable} {items : List Item} {id : VarId}
    (passed : PassesOn vars items id)
    : id ∈ suppliedOf vars items := by
  rw [suppliedOf, mem_addNew]
  exact .inr (List.mem_flatMap.mpr ⟨id, mem_passedOn.mpr passed, mem_withElements vars id⟩)

namespace QueryModel

/-- The item of the subquery before a scope, if there is one. -/
def innerItems (query : QueryModel) : Nat → List FromItem
  | 0 => []
  | source + 1 =>
      [.ofSubquery source (suppliedOf query.vars (itemsBefore query.models (source + 1)))]

/-- The sources of a scope: the subquery before it, and a table for each variable of its clauses. -/
def sources (query : QueryModel) (index : Nat) (model : ScopeModel) : List FromItem :=
  query.innerItems index ++ tableItems (model.scope index)

/-- The scope of a model with its sources. -/
def sourced (query : QueryModel) (model : ScopeModel) (index : Nat) : Scope :=
  { model.scope index with
    select := { (model.scope index).select with fromItems := query.sources index model } }

/-- Every scope of the query projects something. -/
def Projecting (query : QueryModel) : Prop :=
  ∀ model ∈ query.models, model.items ≠ []

/-- Every `WITH` of the query projects something. -/
def Forwarding (query : QueryModel) : Prop :=
  ∀ model ∈ query.models, model.kind = .withClause → model.items ≠ []

theorem Projecting.forwarding {query : QueryModel} (projecting : query.Projecting)
    : query.Forwarding :=
  fun model member _ => projecting model member

variable {query : QueryModel} {catalog : Catalog} {typed : Bool} {vars : VarTable}

/-- A path keeps its elements, and nothing else becomes one. -/
theorem Refined.withElements (refined : query.Refined catalog typed vars) (id : VarId)
    : withElements vars id = Plan.withElements query.vars id := by
  unfold Plan.withElements
  cases found : vars.get? id with
  | none =>
      have absent : query.vars.get? id = none := by
        cases old : query.vars.get? id with
        | none => rfl
        | some var =>
            obtain ⟨other, found', -⟩ := refined.grows.kept old
            simp [found] at found'
      simp [VarTable.definition?, found, absent]
  | some var =>
      obtain ⟨old, present, -, outline, -⟩ := refined.collected found
      simp only [VarTable.definition?_of_get? found, VarTable.definition?_of_get? present]
      cases new : var.definition <;> cases before : old.definition <;>
        simp_all [Definition.outline]

theorem Refined.suppliedOf (refined : query.Refined catalog typed vars) (items : List Item)
    : suppliedOf vars items = Plan.suppliedOf query.vars items := by
  have resolve : vars.resolve = query.vars.resolve := funext refined.resolve
  have elements : Plan.withElements vars = Plan.withElements query.vars :=
    funext refined.withElements
  simp only [Plan.suppliedOf, passedOn, resolve, elements]

/-- The variable is in reach of a scope behind all of its clauses. -/
def Reaches (query : QueryModel) (index : Nat) (model : ScopeModel) (id : VarId) : Prop :=
  InReach query.vars index (itemsBefore query.models index) (clauseIds model.clauses) id

/-- The variable is in reach of a scope, or is declared by its projection. -/
def Mentions (query : QueryModel) (index : Nat) (model : ScopeModel) (id : VarId) : Prop :=
  query.Reaches index model id ∨ .named id ∈ model.items

section References

variable {index : Nat} {model : ScopeModel}

/-- The expressions of a scope refer to what is in reach or declared by its projection. -/
theorem expressions_over (found : query.models[index]? = some model)
    : Expr.AllOver (query.Mentions index model) (model.scope index).expressions := by
  have inScope := query.collected.inScope found
  have reach {own : List VarId} (included : ∀ id ∈ own, id ∈ clauseIds model.clauses) {id : VarId}
      (reach : InReach query.vars index (itemsBefore query.models index) own id)
      : query.Mentions index model id :=
    .inl (reach.mono included)
  simp only [Scope.expressions, Expr.allOver_append, ScopeModel.scope, Select.items, Select.empty,
    List.map_nil, List.append_nil, List.flatMap_nil]
  refine ⟨⟨⟨⟨⟨?_, ?_⟩, ?_⟩, ?_⟩, ?_⟩, ?_⟩
  · intro expr member
    obtain ⟨item, listed, same⟩ := List.mem_filterMap.mp member
    have holds := inScope.items item listed
    cases item with
    | named id => simp at same
    | unnamed other column =>
        obtain rfl := Option.some.inj same
        exact holds.1.mono fun _ => reach fun _ member => member
  · intro expr member
    obtain ⟨key, listed, rfl⟩ := List.mem_map.mp member
    exact inScope.orderBy key (List.mem_filter.mp listed).1
  · intro expr member
    exact (inScope.skip expr (Option.mem_toList.mp member)).mono fun _ => False.elim
  · intro expr member
    exact (inScope.limit expr (Option.mem_toList.mp member)).mono fun _ => False.elim
  · cases filter : model.filter with
    | none => exact Expr.allOver_nil
    | some condition =>
        exact ((inScope.filter condition filter).mono fun _ => reach (by simp)).conjuncts
  · intro expr member
    obtain ⟨clause, listed, present⟩ := List.mem_filterMap.mp member
    obtain ⟨position, at'⟩ := List.mem_iff_getElem?.mp listed
    refine ((inScope.clauses.each at').condition expr present).mono fun _ => reach ?_
    intro id member
    exact mem_clauseIds_of_take at' member

/-- What a table keeps as dependencies of a variable was one of its dependencies when it was
collected.
-/
theorem Refined.mem_dependencies (refined : query.Refined catalog typed vars) {id dep : VarId}
    (member : dep ∈ (vars.dependencies.get? id).getD ∅)
    : ∃ var, query.vars.get? id = some var ∧ dep ∈ var.definition.dependencies id := by
  obtain ⟨order, ordered⟩ := refined.ordered
  rw [ordered.recorded] at member
  cases found : vars.get? id with
  | none => simp [found] at member
  | some var =>
      obtain ⟨old, present, -, outline, restriction⟩ := refined.collected found
      refine ⟨old, present, Definition.dependencies_subset outline restriction ?_⟩
      rw [found, Option.bind_some] at member
      split at member
      · simp at member
      · exact member

/-- A scope refers to what is in reach or declared by its projection. -/
theorem Refined.mentions_of_mem_referenced (refined : query.Refined catalog typed vars)
    (found : query.models[index]? = some model) {id : VarId}
    (member : id ∈ referenced vars (model.scope index))
    : query.Mentions index model id := by
  have inScope := query.collected.inScope found
  simp only [referenced, NameSet.mem_foldl_union, NameSet.not_mem_empty, false_or] at member
  rcases member with (⟨expr, listed, refers⟩ | ⟨declared, listed, depends⟩)
      | ⟨relationship, listed, depends⟩
  · exact (expressions_over found expr listed).of_mem_references refers
  · obtain ⟨var, present, dependency⟩ := refined.mem_dependencies depends
    have holds := inScope.items (.named declared) (mem_namedIds.mp listed)
    obtain ⟨other, expr, type, present', -, definition, isOver⟩ := holds
    obtain rfl := Option.some.inj (present.symm.trans present')
    rw [definition] at dependency
    exact .inl (isOver.of_mem_references dependency)
  · obtain ⟨var, present, dependency⟩ := refined.mem_dependencies depends
    obtain ⟨clause, inClauses, inClause⟩ := List.mem_flatMap.mp listed
    obtain ⟨position, at'⟩ := List.mem_iff_getElem?.mp inClauses
    have clauseScoped := inScope.clauses.each at'
    have declared := ((clauseScoped.relationships relationship).mp inClause).1
    obtain ⟨other, present', -, element⟩ := clauseScoped.elements relationship declared
    obtain rfl := Option.some.inj (present.symm.trans present')
    have reach {id : VarId} (reach : InReach query.vars index (itemsBefore query.models index)
        (clauseIds (model.clauses.take position) ++ clause.ids) id)
        : query.Mentions index model id :=
      .inl (reach.mono fun id member => mem_clauseIds_of_take at' member)
    obtain ⟨different, ⟨condition, restricted, refers⟩ | ⟨rel, kind, isEnd⟩⟩ :=
      Definition.mem_dependencies_of_isElement element dependency
    · have isOver :=
        clauseScoped.restrictions relationship declared var present condition restricted
      rcases isOver.of_mem_references refers with same | inReach
      · exact absurd same different
      · exact reach inReach
    · have isRelationship : query.vars.relationship? relationship = some rel :=
        VarTable.relationship?_eq_some.mpr (VarTable.definition?_eq_some.mpr ⟨var, present, kind⟩)
      obtain ⟨left, right⟩ := clauseScoped.ends relationship declared rel isRelationship
      rcases isEnd with rfl | rfl
      · exact reach left
      · exact reach right

/-- What a scope mentions stands for a variable of the scope, or for one that the scope before
passes on.
-/
theorem Mentions.resolved (found : query.models[index]? = some model) {id : VarId}
    (mentions : query.Mentions index model id)
    : ∃ var,
        query.vars.get? (query.vars.resolve id) = some var
        ∧ (var.scope = index
            ∨ PassesOn query.vars (itemsBefore query.models index) (query.vars.resolve id)) := by
  have ofReach {other : VarId} (reach : query.Reaches index model other)
      : ∃ var,
          query.vars.get? (query.vars.resolve other) = some var
          ∧ (var.scope = index
              ∨ PassesOn query.vars (itemsBefore query.models index)
                (query.vars.resolve other)) := by
    cases reach with
    | inherited found _ passed => exact ⟨_, found, .inr passed⟩
    | declared found here _ => exact ⟨_, found, .inl here⟩
    | path found here _ => exact ⟨_, found, .inl here⟩
  obtain ⟨order, ordered⟩ := query.collected.ordered
  rcases mentions with reach | named
  · exact ofReach reach
  · obtain ⟨var, expr, type, present, here, definition, isOver⟩ :=
      (query.collected.inScope found).items _ named
    cases target : query.vars.target? id with
    | none =>
        rw [VarTable.Ordered.resolve_of_target_none target]
        exact ⟨var, present, .inl here⟩
    | some other =>
        rw [ordered.resolve_of_target target]
        refine ofReach (isOver.of_mem_references ?_)
        have named : var.definition.target? = some other := by
          simpa [VarTable.target?, VarTable.definition?_of_get? present] using target
        have dependency := Definition.target?_mem_dependencies id named
        rwa [definition] at dependency

/-- The sources of a scope supply what the scope before passes on. -/
theorem supplies_of_passesOn {id : VarId}
    (passed : PassesOn query.vars (itemsBefore query.models index) id)
    : (query.sources index model).any (·.supplies id) := by
  cases index with
  | zero =>
      obtain ⟨item, member, -⟩ := passed
      simp [itemsBefore] at member
  | succ source =>
      refine List.any_eq_true.mpr ⟨_, List.mem_append_left _ (List.mem_singleton.mpr rfl), ?_⟩
      exact decide_eq_true passed.mem_suppliedOf

/-- No reference of a scope is broken. -/
theorem Refined.referenceBreach?_eq_none (refined : query.Refined catalog typed vars)
    (found : query.models[index]? = some model) {id : VarId}
    (mentions : query.Mentions index model id)
    : referenceBreach? vars (model.scope index) (query.sources index model) id = none := by
  obtain ⟨var, present, place⟩ := mentions.resolved found
  obtain ⟨other, present', sameScope, -⟩ := refined.grows.kept present
  simp only [referenceBreach?, refined.resolve, present']
  rcases place with here | passed
  · have notEarlier : ¬ other.scope < (model.scope index).index := by
      rw [sameScope, here]
      exact Nat.lt_irrefl index
    simp [notEarlier]
  · simp [supplies_of_passesOn passed]

/-- The references of a scope are broken nowhere. -/
theorem Refined.no_referenceBreach (refined : query.Refined catalog typed vars)
    (found : query.models[index]? = some model)
    : (referenced vars (model.scope index)).names.findSome?
        (referenceBreach? vars (model.scope index) (query.sources index model)) = none := by
  rw [List.findSome?_eq_none_iff]
  intro id member
  exact refined.referenceBreach?_eq_none found
    (refined.mentions_of_mem_referenced found (NameSet.mem_names.mp member))

/-- An item of a `WITH` projects a variable. -/
theorem exists_projected (found : query.models[index]? = some model)
    (kind : model.kind = .withClause) {item : Item} (member : item ∈ model.items)
    : ∃ id, item.projected? = some id := by
  have holds := (query.collected.inScope found).items item member
  cases item with
  | named id => exact ⟨id, rfl⟩
  | unnamed expr column =>
      obtain ⟨id, rfl⟩ := holds.2.1 kind
      exact ⟨id, rfl⟩

/-- The projection of a `WITH` is found safely. -/
theorem Refined.projected_eq (refined : query.Refined catalog typed vars)
    (found : query.models[index]? = some model) (kind : model.kind = .withClause) (step : Step)
    {scope : Scope} (sameItems : scope.items = model.items)
    : projected step vars scope = .ok (passedOn query.vars model.items) := by
  have allNamed : scope.items.findSome? Item.unnamed? = none := by
    rw [List.findSome?_eq_none_iff, sameItems]
    intro item member
    obtain ⟨id, projects⟩ := exists_projected found kind member
    cases item with
    | named id => rfl
    | unnamed expr column => cases expr <;> simp_all [Item.projected?, Item.unnamed?]
  have resolve : vars.resolve = query.vars.resolve := funext refined.resolve
  unfold projected
  rw [allNamed]
  split
  · simp_all
  · rw [sameItems, resolve]
    rfl

/-- A scope that projects something supplies something. -/
theorem suppliedOf_ne_nil (found : query.models[index]? = some model)
    (kind : model.kind = .withClause) (forwarding : query.Forwarding)
    : suppliedOf query.vars model.items ≠ [] := by
  obtain ⟨item, member⟩ := List.exists_mem_of_ne_nil _
    (forwarding model (List.mem_of_getElem? found) kind)
  obtain ⟨id, projects⟩ := exists_projected found kind member
  exact List.ne_nil_of_mem (PassesOn.mem_suppliedOf ⟨item, member, id, projects, rfl⟩)

end References

end QueryModel

/-- Every model but the last is that of a `WITH`. -/
theorem KindsFit.withClause {models : List ScopeModel} (kinds : KindsFit models) {index : Nat}
    {model : ScopeModel} (found : models[index]? = some model) (before : index + 1 < models.length)
    : model.kind = .withClause := by
  obtain ⟨front, last, rfl, -, others⟩ := kinds
  have within : index < front.length := by simpa using before
  rw [List.getElem?_append_left within] at found
  exact others model (List.mem_of_getElem? found)

/-- What each subquery supplies is found safely, at the position of the subquery. -/
theorem suppliedBy_safely {query : QueryModel} {catalog : Catalog} {typed : Bool}
    {vars : VarTable} {tree : Tree} (refined : query.Refined catalog typed vars)
    (each : tree.Each query.models fun model scope => scope = model.scope scope.index)
    : Safely (fun supplied =>
          ∀ source model,
            query.models[source]? = some model
            → source + 1 < query.models.length
            → supplied[source]? = some (suppliedOf query.vars model.items))
        (tree.subqueries.mapM fun subquery => suppliedBy vars subquery.scope) := by
  have supplies : Safely
      (List.Forall₂
        (fun subquery ids => ids = suppliedOf query.vars subquery.scope.items) tree.subqueries)
      (tree.subqueries.mapM fun subquery => suppliedBy vars subquery.scope) := by
    refine Safely.mapM fun subquery member => ?_
    obtain ⟨position, at'⟩ := List.mem_iff_getElem?.mp member
    obtain ⟨model, found, same⟩ := each.each subquery.scope
      (Tree.mem_scopes.mpr (.inl ⟨subquery, member, rfl⟩))
    have index := each.subquery_index at'
    have length := each.length
    have within := (List.getElem?_eq_some_iff.mp at').1
    have kind := query.collected.kinds.withClause found (by omega)
    have items : subquery.scope.items = model.items := by rw [same]; rfl
    unfold suppliedBy
    rw [refined.projected_eq found kind .findSources items]
    refine Safely.pure_iff.mpr ?_
    rw [← refined.suppliedOf, suppliedOf, items]
    simp only [passedOn, funext refined.resolve]
  refine supplies.mono fun supplied lists source model found before => ?_
  have length := each.length
  have within : source < tree.subqueries.length := by omega
  have position := List.getElem?_eq_getElem within
  have index := each.subquery_index position
  obtain ⟨other, found', same⟩ := each.each _ (List.mem_of_getElem? (Tree.scopes_getElem? position))
  rw [index, found] at found'
  obtain rfl := Option.some.inj found'
  obtain ⟨ids, present, equal⟩ := forall₂_getElem?_left lists position
  rw [present, equal, same]
  rfl

/-- The sources of every scope are found safely: they are those of the model. -/
theorem findSources_safely {query : QueryModel} {catalog : Catalog} {typed : Bool} {draft : Draft}
    (refined : query.Refined catalog typed draft.vars) (forwarding : query.Forwarding)
    (each : draft.tree.Each query.models fun model scope => scope = model.scope scope.index)
    (named : ∀ subquery ∈ draft.tree.subqueries, subquery.Named)
    : Safely (fun later =>
          later.vars = draft.vars
          ∧ later.tree.Each query.models
            (fun model scope => scope = query.sourced model scope.index)
          ∧ ∀ subquery ∈ later.tree.subqueries, subquery.Named)
        (findSources draft) := by
  unfold findSources
  refine (suppliedBy_safely refined each).bind fun supplied supplies => ?_
  have scopes : Safely
      (draft.tree.Maps fun old new => ∀ model,
        query.models[old.index]? = some model
        → old = model.scope old.index
        → new = query.sourced model old.index)
      (draft.tree.mapScopesM (scopeSources draft.vars supplied)) := by
    refine Tree.mapScopesM_safely fun scope member => ?_
    obtain ⟨model, found, same⟩ := each.each scope member
    -- The first scope reads no subquery, each later one that of the scope before it.
    have inner : innerItems supplied scope = .ok (query.innerItems scope.index) := by
      rw [same]
      cases position : scope.index with
      | zero => simp [innerItems, ScopeModel.scope, QueryModel.innerItems]
      | succ source =>
          have before : source + 1 < query.models.length := by
            rw [← position]
            exact (List.getElem?_eq_some_iff.mp found).1
          obtain ⟨previous, found'⟩ : ∃ previous, query.models[source]? = some previous :=
            ⟨_, List.getElem?_eq_getElem (by omega)⟩
          have kind := query.collected.kinds.withClause found' before
          have some' := QueryModel.suppliedOf_ne_nil found' kind forwarding
          simp only [innerItems, ScopeModel.scope, Nat.add_one_ne_zero, if_false,
            Nat.add_one_sub_one, supplies source previous found' before,
            QueryModel.innerItems, itemsBefore, found',
            Option.elim_some]
    unfold scopeSources
    have blank : (!scope.select.fromItems.isEmpty || !scope.select.joins.isEmpty) = false := by
      rw [same]
      rfl
    rw [blank, inner]
    have noBreach := refined.no_referenceBreach found
    rw [← same] at noBreach
    have sources
        : query.innerItems scope.index ++ tableItems scope = query.sources scope.index model := by
      rw [QueryModel.sources, ← same]
    simp only [Bool.false_eq_true, if_false, Safely.ok_bind, sources, noBreach]
    refine Safely.pure_iff.mpr fun other found' _ => ?_
    obtain rfl := Option.some.inj (found.symm.trans found')
    rw [QueryModel.sourced, ← same]
  refine scopes.bind fun tree maps => ?_
  refine Safely.pure_iff.mpr ⟨rfl, ?_, ?_⟩
  · refine each.maps maps fun model old new found same changed => ?_
    have result := changed model found same
    have index : new.index = old.index := by
      rw [result]
      rfl
    exact ⟨index, index ▸ result⟩
  · exact maps.named named

/-- The model of a `WITH` is not the last one. -/
theorem KindsFit.lt_length {models : List ScopeModel} (kinds : KindsFit models) {index : Nat}
    {model : ScopeModel} (found : models[index]? = some model) (kind : model.kind = .withClause)
    : index + 1 < models.length := by
  obtain ⟨front, last, rfl, returns, -⟩ := kinds
  have within := (List.getElem?_eq_some_iff.mp found).1
  rw [List.length_append, List.length_singleton] at within ⊢
  by_contra beyond
  obtain rfl : index = front.length := by omega
  rw [List.getElem?_concat_length] at found
  obtain rfl := Option.some.inj found
  simp [returns] at kind

theorem innerItems_of_scopeSources {vars : VarTable} {supplied : List (List VarId)}
    {scope later : Scope} (succeeded : scopeSources vars supplied scope = .ok later)
    : ∃ items, innerItems supplied scope = .ok items := by
  unfold scopeSources at succeeded
  split at succeeded
  · cases succeeded
  · cases inner : innerItems supplied scope with
    | ok items => exact ⟨items, rfl⟩
    | error error =>
        rw [inner] at succeeded
        cases succeeded

/-- Where the sources of every scope are found, every `WITH` projects something. -/
theorem forwarding_of_findSources {query : QueryModel} {catalog : Catalog} {typed : Bool}
    {draft later : Draft} (refined : query.Refined catalog typed draft.vars)
    (each : draft.tree.Each query.models fun model scope => scope = model.scope scope.index)
    (runs : findSources draft = .ok later)
    : query.Forwarding := by
  intro model member kind empty
  obtain ⟨source, found⟩ := List.mem_iff_getElem?.mp member
  have before := query.collected.kinds.lt_length found kind
  -- The scope after the `WITH` cannot have its sources, as nothing is supplied to it.
  obtain ⟨scope, position⟩ : ∃ scope, draft.tree.scopes[source + 1]? = some scope := by
    refine ⟨_, List.getElem?_eq_getElem ?_⟩
    rwa [← List.length_range (n := query.models.length), ← each.indexed, List.length_map] at before
  have index := each.index position
  obtain ⟨own, -, same⟩ := each.each scope (List.mem_of_getElem? position)
  have unsupplied {supplied : List (List VarId)} {items : List FromItem}
      (nothing : supplied[source]? = some [])
      : innerItems supplied scope ≠ .ok items := by
    rw [same, index]
    simp [innerItems, ScopeModel.scope, nothing, fail]
  have supplies := suppliedBy_safely refined each
  unfold findSources at runs
  cases lists : draft.tree.subqueries.mapM fun subquery => suppliedBy draft.vars subquery.scope with
  | error error =>
      rw [lists] at runs
      cases runs
  | ok supplied =>
      rw [lists] at supplies runs
      cases changed : draft.tree.mapScopesM (scopeSources draft.vars supplied) with
      | error error =>
          rw [Safely.ok_bind, changed] at runs
          cases runs
      | ok tree =>
          have maps := Tree.mapScopesM_holds Modality.ofOk
            (fun scope _ later => innerItems_of_scopeSources) tree changed
          obtain ⟨_, -, items, inner⟩ := forall₂_getElem?_left maps.scopes position
          refine unsupplied ?_ inner
          rw [supplies source model found before, empty]
          rfl

end CypherSql.Plan
