import CypherSql.Proofs.Inlining.Retained
import CypherSql.Proofs.ReferentialIntegrity
import CypherSql.Proofs.Sharing.Simplified

/-! Variants whose walks agree are lowered to trees that return and sort by the same.
-/

namespace CypherSql.Plan

variable {draft other later laterOther : Draft} {vars varsOther : VarTable} {declared : List VarId}
  {id : VarId}

theorem Definition.shape_outline (definition : Definition)
    : definition.outline.shape = definition.shape := by
  cases definition <;> rfl

/-- A table that refines a model shares its variables. -/
theorem QueryModel.Refined.shape_eq {query : QueryModel} {catalog : Catalog} {typed : Bool}
    (refined : query.Refined catalog typed vars) (id : VarId)
    : (vars.get? id).map Variable.shape = (query.vars.get? id).map Variable.shape := by
  cases found : vars.get? id with
  | some var =>
      obtain ⟨old, present, scope, outline, -⟩ := refined.collected found
      rw [present, Option.map_some, Option.map_some, Variable.shape, Variable.shape, scope,
        ← Definition.shape_outline, outline, Definition.shape_outline]
  | none =>
      cases present : query.vars.get? id with
      | none => rfl
      | some old =>
          obtain ⟨var, found', -⟩ := refined.grows.kept present
          simp [found] at found'

theorem Definition.projection?_shape (definition : Definition)
    : definition.shape.projection? = definition.projection? := by
  cases definition <;> rfl

/-- What a variable with a written id projects is the same in both variants. -/
theorem VarTable.Agree.projection?_eq (agree : vars.Agree varsOther) (written : Written id)
    : (vars.definition? id).bind Definition.projection?
      = (varsOther.definition? id).bind Definition.projection? := by
  have projection (vars : VarTable)
      : (vars.definition? id).bind Definition.projection?
        = ((vars.get? id).map Variable.shape).bind fun shape => shape.2.projection? := by
    rw [VarTable.definition?]
    cases vars.get? id with
    | none => rfl
    | some var => exact var.definition.projection?_shape.symm
  rw [projection, projection, agree.shares id written]

/-- Tables with the same shapes are plain together. -/
theorem VarTable.Plain.of_shape (plain : vars.Plain)
    (same : ∀ id, (varsOther.get? id).map Variable.shape = (vars.get? id).map Variable.shape)
    : varsOther.Plain := by
  have earlier {id : VarId} {var : Variable} (found : varsOther.get? id = some var)
      : ∃ old, vars.get? id = some old ∧ old.definition.shape = var.definition.shape := by
    have shape := same id
    rw [found, Option.map_some] at shape
    obtain ⟨old, present, shape⟩ := Option.map_eq_some_iff.mp shape.symm
    exact ⟨old, present, congrArg Prod.snd shape⟩
  have path (definition : Definition)
      : definition.path?.map (fun path => (path.1, path.2.head?)) = definition.shape.path? := by
    cases definition <;> rfl
  refine ⟨fun found projecting => ?_, fun found projects => ?_, ?_⟩
  · obtain ⟨old, present, shape⟩ := earlier found
    rw [← Definition.projection?_shape, ← shape, Definition.projection?_shape] at projecting
    exact plain.written present projecting
  · obtain ⟨old, present, shape⟩ := earlier found
    rw [← Definition.projection?_shape, ← shape, Definition.projection?_shape] at projects
    exact plain.within present projects
  · intro id var hops elements first found written isPath isFirst
    obtain ⟨old, present, shape⟩ := earlier found
    have shapes := path var.definition
    rw [← shape, ← path, isPath, Option.map_some, isFirst] at shapes
    obtain ⟨⟨_, starts⟩, isOld, same⟩ := Option.map_eq_some_iff.mp shapes.symm
    exact plain.starts present written isOld (congrArg Prod.snd same)

/-- Variants agree once their functions are simplified. -/
theorem Draft.Agree.simplifyFunctions (agree : draft.Agree other) (typed : draft.vars.WellTyped)
    (typedOther : other.vars.WellTyped) (succeeded : simplifyFunctions draft = .ok later)
    (succeededOther : simplifyFunctions other = .ok laterOther)
    : later.Agree laterOther :=
  Draft.Agree.mapExprsM (fun _ _ _ _ => Expr.eq_mapParts_of_mapPartsM) simplifyFunctions_keepsTyped
    rewritesAlike_simplified agree typed typedOther succeeded succeededOther

/-- Variants agree once their properties are simplified. -/
theorem Draft.Agree.simplifyProperties (agree : draft.Agree other) (typed : draft.vars.WellTyped)
    (typedOther : other.vars.WellTyped)
    : (simplifyProperties draft).Agree (simplifyProperties other) :=
  agree.mapExprs simplifyProperties_keepsTyped rewritesAlike_simplifyProperty typed typedOther

/-- Variants agree once constants are put in place of variables. -/
theorem Draft.Agree.replaceConstants (agree : draft.Agree other)
    : (draft.mapExprs replaceConstants).Agree (other.mapExprs replaceConstants) :=
  agree.mapExprs (fun _ _ _ _ _ _ _ _ _ _ => trivial) rewritesAlike_replaceConstants trivial trivial

theorem Draft.Intact.replaceConstants (intact : draft.Intact declared)
    : (draft.mapExprs replaceConstants).Intact declared :=
  intact.mapExprs inlineConstants_within fun site stands => .inl (inlineConstants_names site stands)

/-- No more is projected by subqueries, and what no subquery declares stays as it is. -/
structure Draft.KeepsReturned (draft later : Draft) : Prop where
  root : ∃ select, later.tree.root = { draft.tree.root with select }
  narrows : draft.Narrows later
  others
    : ∀ id,
        (∀ subquery ∈ draft.tree.subqueries, id ∉ subquery.scope.declared)
        → later.vars.get? id = draft.vars.get? id

theorem Draft.KeepsReturned.refl (draft : Draft) : draft.KeepsReturned draft :=
  ⟨⟨draft.tree.root.select, rfl⟩, .refl draft, fun _ _ => rfl⟩

theorem Draft.KeepsReturned.trans {first second third : Draft} (left : first.KeepsReturned second)
    (right : second.KeepsReturned third)
    : first.KeepsReturned third := by
  obtain ⟨_, first⟩ := left.root
  obtain ⟨select, second⟩ := right.root
  refine ⟨⟨select, by rw [second, first]⟩, left.narrows.trans right.narrows,
    fun id undeclared => ?_⟩
  refine (right.others id fun subquery member declares => ?_).trans (left.others id undeclared)
  obtain ⟨position, found⟩ := List.mem_iff_getElem?.mp member
  obtain ⟨old, present, subset⟩ := left.narrows.declares found
  exact undeclared old (List.mem_of_getElem? present) (subset declares)

/-- Dropping a constant that a subquery declared keeps what is returned. -/
theorem Draft.KeepsReturned.dropConstant {start : Draft} (kept : start.KeepsReturned draft)
    (source : Nat)
    (declares : ∃ subquery ∈ start.tree.subqueries, id ∈ subquery.scope.declared)
    : start.KeepsReturned (dropConstant source draft id) := by
  have step
      : (∃ select, (Plan.dropConstant source draft id).tree.root = { draft.tree.root with select })
      ∧ ∀ other,
          other ≠ id → (Plan.dropConstant source draft id).vars.get? other
            = draft.vars.get? other := by
    unfold Plan.dropConstant
    split
    · exact ⟨⟨_, rfl⟩, fun _ _ => rfl⟩
    · split
      · exact ⟨⟨_, rfl⟩, fun _ _ => rfl⟩
      · split
        · exact ⟨⟨_, rfl⟩, fun other apart => get?_standIn_of_ne apart⟩
        · exact ⟨⟨_, rfl⟩, fun other apart => by rw [VarTable.get?_remove, if_neg apart]⟩
  obtain ⟨_, before⟩ := kept.root
  obtain ⟨select, after⟩ := step.1
  refine ⟨⟨select, by rw [after, before]⟩,
    kept.narrows.trans (dropConstant_narrows draft source id), ?_⟩
  intro other undeclared
  refine (step.2 other ?_).trans (kept.others other undeclared)
  obtain ⟨subquery, member, declares⟩ := declares
  rintro rfl
  exact undeclared subquery member declares

/-- Constants of a subquery are dropped one after the other, by induction over them. -/
theorem Draft.KeepsReturned.foldl_dropConstant {start : Draft} (kept : start.KeepsReturned draft)
    (source : Nat) {ids : List VarId}
    (declares : ∀ id ∈ ids, ∃ subquery ∈ start.tree.subqueries, id ∈ subquery.scope.declared)
    : start.KeepsReturned (ids.foldl (Plan.dropConstant source) draft) := by
  induction ids generalizing draft with
  | nil => exact kept
  | cons id rest ih =>
      obtain ⟨first, others⟩ := List.forall_mem_cons.mp declares
      exact ih (kept.dropConstant source first) others

/-- All constants are dropped, by induction over the subqueries. -/
theorem dropConstants_keepsReturned (draft : Draft)
    : draft.KeepsReturned (dropConstants draft) := by
  have each (draft : Draft) (source : Nat)
      : draft.KeepsReturned (dropConstantsOf draft source) := by
    unfold dropConstantsOf
    split
    · exact .refl draft
    · rename_i subquery found
      refine (Draft.KeepsReturned.refl draft).foldl_dropConstant source fun id member => ?_
      exact ⟨subquery, List.mem_of_getElem? found, (List.mem_filter.mp member).1⟩
  unfold dropConstants
  generalize List.range draft.tree.subqueries.length = sources
  induction sources generalizing draft with
  | nil => exact .refl draft
  | cons source rest ih => exact (each draft source).trans (ih _)

/-- What the last scope of an intact draft declares, no subquery does. -/
theorem Draft.Intact.undeclared (intact : draft.Intact declared)
    (returned : .named id ∈ draft.tree.root.items)
    : ∀ subquery ∈ draft.tree.subqueries, id ∉ subquery.scope.declared := by
  intro subquery member declares
  have indexed := intact.handsOver.indexed
  obtain ⟨position, found⟩ := List.mem_iff_getElem?.mp member
  have isRoot : draft.tree.root ∈ draft.tree.scopes := Tree.mem_scopes.mpr (.inr rfl)
  have isScope : subquery.scope ∈ draft.tree.scopes :=
    Tree.mem_scopes.mpr (.inl ⟨subquery, member, rfl⟩)
  obtain ⟨var, expr, type, present, scope, -⟩ :=
    (intact.layered.tree.scopes _ isRoot).items _ returned
  obtain ⟨same, expr', type', present', scope', -⟩ :=
    (intact.layered.tree.scopes _ isScope).items _ (mem_namedIds.mp declares)
  obtain rfl := Option.some.inj (present.symm.trans present')
  have within := (List.getElem?_eq_some_iff.mp found).1
  rw [indexed.root_index] at scope
  rw [indexed.subquery_index found] at scope'
  omega

/-- What two lowered variants return and sort by is the same. -/
structure Lowered.Agree (lowered other : Lowered) : Prop where
  items : lowered.tree.root.items = other.tree.root.items
  orderBy : lowered.tree.root.orderBy = other.tree.root.orderBy
  projections
    : ∀ id,
        .named id ∈ lowered.tree.root.items
        → (lowered.vars.definition? id).bind Definition.projection?
          = (other.vars.definition? id).bind Definition.projection?
  resolves : ∀ id, .named id ∈ lowered.tree.root.items
    → lowered.vars.resolve id = other.vars.resolve id

/-- Marking properties and resolving names leaves what variables stand for, and resolves the names
in what they project and in the last scope.
-/
structure Draft.Finishes (draft later : Draft) : Prop where
  resolve : later.vars.resolve = draft.vars.resolve
  projections
    : ∀ id,
        (later.vars.definition? id).bind Definition.projection?
        = ((draft.vars.definition? id).bind Definition.projection?).map
            (Expr.mapParts (resolveName draft.vars))
  root : draft.tree.root.Rewritten (fun _ => Expr.mapParts (resolveName draft.vars)) later.tree.root

theorem Draft.finishes (intact : draft.Intact declared)
    : draft.Finishes (resolveNames (markProperties draft)) := by
  have coherent := intact.markProperties.coherent
  have same := foldl_markRead_sameProjections (propertyReads draft.tree draft.vars) draft.vars
  have resolves : resolveName (markProperties draft).vars = resolveName draft.vars :=
    resolveName_congr same.resolve
  have projection (vars : VarTable) (id : VarId)
      : (vars.definition? id).bind Definition.projection?
        = ((vars.get? id).map Variable.projection).bind (·.2) := by
    rw [VarTable.definition?]
    cases vars.get? id <;> rfl
  refine ⟨?_, fun id => ?_, ?_⟩
  · exact (mapProjections_resolveName (markProperties draft).vars.vars.keys_nodup coherent).1.trans
      same.resolve
  · have marked : ((markProperties draft).vars.get? id).map Variable.projection
        = (draft.vars.get? id).map Variable.projection := same id
    rw [projection, projection, Draft.get?_resolveNames coherent, ← marked, resolves]
    cases (markProperties draft).vars.get? id with
    | none => rfl
    | some var => exact congrArg Prod.snd (var.projection_mapProjection _)
  · rw [← resolves]
    exact (Tree.mapScopesM_holds Modality.ofId fun scope _ => Scope.mapExprsM_rewrites Modality.ofId
      (g := fun _ => Expr.mapParts (resolveName (markProperties draft).vars))
      (fun _ _ => rfl) scope).root

/-- Dropping constants leaves other names of variables. -/
theorem VarTable.Drops.target?_eq (drops : vars.Drops varsOther) (id : VarId)
    : varsOther.target? id = vars.target? id := by
  cases constant : constant? vars id with
  | none => rw [VarTable.target?, VarTable.definition?, drops.others id constant]; rfl
  | some value =>
      obtain ⟨value, scope⟩ := value
      rw [target?_of_constant? constant]
      rcases drops.constants id value scope constant with gone | ⟨kept, found, -⟩
      · rw [VarTable.target?, VarTable.definition?, gone]
        rfl
      · exact target?_of_constant? found

theorem Item.named_mem_map {f : Expr → Expr} {items : List Item}
    : .named id ∈ items.map (Item.mapExpr f) ↔ .named id ∈ items := by
  rw [List.mem_map]
  constructor
  · rintro ⟨item, member, same⟩
    cases item with
    | named other => exact Item.named.inj same ▸ member
    | unnamed expr column => cases same
  · exact fun member => ⟨.named id, member, rfl⟩

/-- Drafts of variants with constants in place of variables are finished to trees that agree. -/
theorem Draft.Agree.finished {declaredOther : List VarId} {lowered loweredOther : Lowered}
    (agree : draft.Agree other) (intact : draft.Intact declared)
    (intactOther : other.Intact declaredOther)
    (finishes : (dropConstants draft).Finishes later)
    (finishesOther : (dropConstants other).Finishes laterOther) (tree : lowered.tree = later.tree)
    (vars : lowered.vars = later.vars) (treeOther : loweredOther.tree = laterOther.tree)
    (varsOther : loweredOther.vars = laterOther.vars)
    : lowered.Agree loweredOther := by
  have keeps := dropConstants_keepsReturned draft
  have keepsOther := dropConstants_keepsReturned other
  obtain ⟨_, -, ordered⟩ := intact.dropConstants.coherent.inOrder
  obtain ⟨_, -, orderedOther⟩ := intactOther.dropConstants.coherent.inOrder
  have names : (dropConstants draft).vars.SharesNames (dropConstants other).vars := by
    intro id
    rw [(dropConstants_drops draft).vars.target?_eq, (dropConstants_drops other).vars.target?_eq]
    exact agree.vars.shares.sharesNames agree.vars.plain id
  have agrees := agreeOver_resolveName names ordered orderedOther
  obtain ⟨_, root⟩ := keeps.root
  obtain ⟨_, rootOther⟩ := keepsOther.root
  have roots : (dropConstants draft).tree.root.Agree (dropConstants other).tree.root := by
    rw [root, rootOther]
    exact { agree.root with }
  have last :=
    roots.rewritten
    (fun _ expr isWithin => ⟨agrees.mapParts_eq expr isWithin, agrees.within isWithin⟩)
    finishes.root finishesOther.root
  have returned {id : VarId} (member : .named id ∈ lowered.tree.root.items)
      : .named id ∈ draft.tree.root.items ∧ Written id := by
    rw [tree, finishes.root.items, Item.named_mem_map, root] at member
    exact ⟨member, agree.root.plainItems _ member⟩
  refine ⟨by rw [tree, treeOther, last.items], by rw [tree, treeOther, last.orderBy],
    fun id member => ?_, fun id member => ?_⟩
  · obtain ⟨member, written⟩ := returned member
    have undeclared := intact.undeclared member
    have undeclaredOther := intactOther.undeclared (agree.root.items ▸ member)
    rw [vars, varsOther, finishes.projections, finishesOther.projections, VarTable.definition?,
      VarTable.definition?, keeps.others id undeclared, keepsOther.others id undeclaredOther,
      ← VarTable.definition?, ← VarTable.definition?, ← agree.vars.projection?_eq written]
    cases projects : (draft.vars.definition? id).bind Definition.projection? with
    | none => rfl
    | some expr =>
        obtain ⟨definition, defined, projects⟩ := Option.bind_eq_some_iff.mp projects
        obtain ⟨var, found, rfl⟩ := VarTable.definition?_eq_some.mp defined
        exact congrArg some (agrees.mapParts_eq expr (agree.vars.plain.within found projects))
  · obtain ⟨-, written⟩ := returned member
    rw [vars, varsOther, finishes.resolve, finishesOther.resolve]
    exact (names.resolve ordered orderedOther written).1

/-- The last scope of a tree fits the last model. -/
theorem Tree.Each.root {tree : Tree} {front : List ScopeModel} {last : ScopeModel}
    {fits : ScopeModel → Scope → Prop} (each : tree.Each (front ++ [last]) fits)
    : tree.root.index = front.length ∧ fits last tree.root := by
  have length := each.length_scopes
  have found : tree.scopes[front.length]? = some tree.root := by
    simp only [Tree.scopes, List.length_append, List.length_map, List.length_singleton,
      Nat.add_right_cancel_iff] at length ⊢
    rw [← length, List.getElem?_append_right (by simp)]
    simp
  obtain ⟨index, model, isModel, fit⟩ := each.getElem? found
  rw [List.getElem?_concat_length] at isModel
  exact ⟨index, Option.some.inj isModel ▸ fit⟩

/-- What is known of a query when its exports are found: its variables share what was collected, and
its last scope projects and sorts by what was collected for it, without constants.
-/
structure Draft.Exported (walk : Walk) (draft : Draft) : Prop where
  intact : ∃ declared, draft.Intact declared
  typed : draft.vars.WellTyped
  shapes : ∀ id, (draft.vars.get? id).map Variable.shape = (walk.vars.get? id).map Variable.shape
  root
    : ∃ front last,
        walk.models = front ++ [last]
        ∧ draft.tree.root.kind = .returnClause
        ∧ draft.tree.root.index = front.length
        ∧ draft.tree.root.items = last.items
        ∧ draft.tree.root.orderBy = last.sortKeys

/-- A query is lowered by simplifying the expressions of such a draft. -/
theorem exists_exported {catalog : Catalog} {query : Cypher.Query} {lowered : Lowered}
    (succeeded : lower catalog query = .ok lowered)
    : ∃ walk exported functions,
        collect query = .ok walk
        ∧ exported.Exported walk
        ∧ simplifyFunctions exported = .ok functions
        ∧ let last := resolveNames (markProperties (inlineConstants (simplifyProperties functions)))
          lowered.tree = last.tree ∧ lowered.vars = last.vars := by
  obtain ⟨start, arranged, exported, simple, begins, arranges, finds, simplifies, -, tree, vars⟩ :=
    exists_of_lower succeeded
  obtain ⟨walk, collected, empty, models, start'⟩ := QueryModel.exists_of_ofQuery begins
  obtain ⟨inOrder, isCollected, -⟩ := (collect_safely query).of_ok collected
  obtain ⟨layeredVars, layeredModels⟩ := collect_layered collected
  have layered : QueryModel.Layered ⟨walk.vars, walk.models, isCollected⟩ :=
    ⟨layeredVars, layeredModels⟩
  have after
      : QueryModel.After ⟨walk.vars, walk.models, isCollected⟩ catalog start .collectVariables :=
    ⟨empty, models, start'⟩
  have afterArranged := (after.arranged arranges).2
  have coherent := afterArranged.coherent (by decide) inOrder
  have intact :=
    (layered.early after (by decide) arranges).intact_of_findExports coherent afterArranged
    finds
  obtain ⟨refined, each, -⟩ := afterArranged
  have exportedVars := Draft.findExports_vars finds
  obtain ⟨functions, first, rest⟩ := bind_eq_ok.mp simplifies
  obtain rfl : inlineConstants (simplifyProperties functions) = simple := Except.ok.inj rest
  refine ⟨walk, exported, functions, collected,
    ⟨⟨_, intact⟩, ⟨_, exportedVars ▸ refined.typed inOrder⟩, ?_, ?_⟩, first, tree, vars⟩
  · rw [exportedVars]
    exact refined.shape_eq
  · obtain ⟨front, last, split, returns, -⟩ := isCollected.kinds
    have eachExported : exported.tree.Each walk.models fun model scope =>
        scope.frame = (model.scope scope.index).frame := by
      refine ⟨?_, fun scope member => ?_⟩
      · rw [findExports_scopes finds]
        exact each.indexed
      · rw [findExports_scopes finds] at member
        obtain ⟨model, found, joined, -⟩ := each.each scope member
        exact ⟨model, found, joined.frame⟩
    obtain ⟨index, frame⟩ :=
      Tree.Each.root (show exported.tree.Each (front ++ [last]) _ from split ▸ eachExported)
    exact ⟨front, last, split, (congrArg Scope.kind frame).trans returns, index,
      congrArg Scope.items frame, congrArg Scope.orderBy frame⟩

/-- Variants agree when their exports are found. -/
theorem Draft.Exported.agree {walk walkOther : Walk} (exported : draft.Exported walk)
    (exportedOther : other.Exported walkOther) (walks : walk.Agree walkOther)
    : draft.Agree other := by
  obtain ⟨front, last, models, returns, index, items, orderBy⟩ := exported.root
  obtain ⟨front', last', models', returns', index', items', orderBy'⟩ := exportedOther.root
  have projections := walks.shares.models
  rw [models, models', List.map_append, List.map_append] at projections
  obtain ⟨fronts, lasts⟩ := List.append_inj' projections rfl
  obtain ⟨sameItems, sameKeys⟩ := Prod.mk.inj (List.cons.inj lasts).1
  have length : front.length = front'.length := by simpa using congrArg List.length fronts
  have plain : last.Plain := walks.plain.models last (by simp [models])
  refine ⟨⟨walks.plain.vars.of_shape exported.shapes,
    walks.plainOther.vars.of_shape exportedOther.shapes, ?_⟩,
      ⟨returns, returns', ?_, ?_, ?_, ?_, ?_⟩⟩
  · intro id written
    rw [exported.shapes, exportedOther.shapes]
    exact walks.shares.vars id written
  · rw [index, index', length]
  · rw [items, items', sameItems]
  · rw [orderBy, orderBy', ScopeModel.sortKeys, ScopeModel.sortKeys, sameKeys]
  · exact items ▸ plain.items
  · rw [orderBy]
    exact fun key member => plain.orderBy key (List.mem_filter.mp member).1

/-- Queries with alike clauses are lowered to trees that agree. -/
theorem lower_agree {catalog : Catalog} {query queryOther : Cypher.Query}
    {lowered loweredOther : Lowered}
    (plain : ∀ clause ∈ query.clauses, Clause.Plain clause)
    (alike : List.Forall₂ Clause.Alike query.clauses queryOther.clauses)
    (succeeded : lower catalog query = .ok lowered)
    (succeededOther : lower catalog queryOther = .ok loweredOther)
    : lowered.Agree loweredOther := by
  obtain ⟨walk, exported, functions, collected, known, simplifies, tree, vars⟩ :=
    exists_exported succeeded
  obtain ⟨walkOther, exportedOther, functionsOther, collectedOther, knownOther,
    simplifiesOther, treeOther, varsOther⟩ := exists_exported succeededOther
  have walks := collect_agree plain alike collected collectedOther
  obtain ⟨_, intact⟩ := known.intact
  obtain ⟨_, intactOther⟩ := knownOther.intact
  have measured :=
    (known.agree knownOther walks).simplifyFunctions known.typed knownOther.typed simplifies
    simplifiesOther
  have typed := Draft.wellTyped_simplifyFunctions known.typed simplifies
  have typedOther := Draft.wellTyped_simplifyFunctions knownOther.typed simplifiesOther
  have replaced := (measured.simplifyProperties typed typedOther).replaceConstants
  have intactReplaced := (intact.simplifyFunctions simplifies).simplifyProperties.replaceConstants
  have intactOther :=
    (intactOther.simplifyFunctions simplifiesOther).simplifyProperties.replaceConstants
  exact replaced.finished intactReplaced intactOther (Draft.finishes intactReplaced.dropConstants)
    (Draft.finishes intactOther.dropConstants) tree vars treeOther varsOther

end CypherSql.Plan
