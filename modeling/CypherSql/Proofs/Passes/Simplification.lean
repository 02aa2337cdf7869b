import CypherSql.Plan.Lowering
import CypherSql.Proofs.Passes.Constants

/-! The steps that find the exports, simplify expressions and note which properties are read. They
keep a draft settled, and up to the dropping of constants its exports anchored.
-/

namespace CypherSql.Plan

/-- A subquery with exports that hold on to its items, and the same otherwise. -/
structure Subquery.Exports (vars : VarTable) (subquery later : Subquery) : Prop where
  name : later.name = subquery.name
  scope : later.scope = subquery.scope
  anchored
    : ∀ item ∈ subquery.scope.items,
        ∃ exported ∈ later.exports,
          vars.NamesElement exported.id
          ∨ (.named exported.id ∈ subquery.scope.items → item = .named exported.id)

/-- What stands for a node is a name of a node or relationship, by induction over the chain of
names.
-/
theorem VarTable.StandsForNode.namesElement {vars : VarTable} {order : List VarId} {id : VarId}
    (stands : vars.StandsForNode id) (ordered : vars.Ordered order)
    : vars.NamesElement id := by
  induction id using ordered.chain_induction with
  | last id last =>
      obtain ⟨node, found⟩ := stands
      rw [VarTable.Ordered.resolve_of_target_none last] at found
      exact .element (VarTable.node?_eq_some.mp found) rfl
  | next id target next ih =>
      obtain ⟨definition, found, named⟩ := Option.bind_eq_some_iff.mp next
      have stands : vars.StandsForNode target := by
        rwa [VarTable.StandsForNode, ← ordered.resolve_of_target next]
      cases definition with
      | projected expr type =>
          cases expr with
          | var other =>
              obtain rfl := Option.some.inj named
              exact .renamed found (ih stands)
          | _ => simp [Definition.target?] at named
      | _ => simp [Definition.target?] at named

namespace QueryModel

variable {query : QueryModel} {catalog : Catalog} {vars : VarTable} {index : Nat}
  {model : ScopeModel} {id : VarId} {item : Item}

/-- What is in reach of a scope is not what its projection names. -/
theorem Reaches.not_named (reach : query.Reaches index model id)
    (found : query.models[index]? = some model)
    : .named (query.vars.resolve id) ∉ model.items := by
  intro named
  obtain ⟨var, expr, type, present, here, definition, -⟩ :=
    (query.collected.inScope found).items _ named
  cases reach with
  | inherited found' earlier _ =>
      obtain rfl := Option.some.inj (present.symm.trans found')
      exact Nat.ne_of_lt earlier here
  | declared _ _ listed =>
      obtain ⟨other, found', -, element⟩ := element_of_mem_clauseIds found listed
      obtain rfl := Option.some.inj (present.symm.trans found')
      simp [definition, Definition.isElement] at element
  | path found' _ kind =>
      obtain rfl := Option.some.inj (present.symm.trans found')
      simp [definition] at kind

/-- The only item that passes a variable on and may name it is the one that names it. -/
theorem eq_named_of_resolve (found : query.models[index]? = some model)
    (member : item ∈ model.items)
    (projects : item.projected? = some id) (named : .named (query.vars.resolve id) ∈ model.items)
    : item = .named (query.vars.resolve id) := by
  obtain ⟨order, ordered⟩ := query.collected.ordered
  have holds := (query.collected.inScope found).items item member
  cases item with
  | named other =>
      obtain rfl := Option.some.inj projects
      obtain ⟨var, expr, type, present, -, definition, isOver⟩ := holds
      cases target : query.vars.target? other with
      | none => rw [VarTable.Ordered.resolve_of_target_none target]
      | some next =>
          have same : expr = .var next := by
            rw [VarTable.target?, VarTable.definition?_of_get? present, Option.bind_some,
              definition] at target
            cases expr <;> simp_all [Definition.target?]
          subst same
          rw [ordered.resolve_of_target target] at named
          exact absurd named (Reaches.not_named (Expr.over_var.mp isOver) found)
  | unnamed expr column =>
      cases expr with
      | var other =>
          obtain rfl := Option.some.inj projects
          exact absurd named (Reaches.not_named (Expr.over_var.mp holds.1) found)
      | _ => simp [Item.projected?] at projects

/-- What a subquery supplies holds on to its items. -/
theorem anchored_suppliedOf (found : query.models[index]? = some model)
    (kind : model.kind = .withClause)
    : Anchored model.items (suppliedOf query.vars model.items) := by
  intro item member
  obtain ⟨id, projects⟩ := exists_projected found kind member
  exact ⟨_, PassesOn.mem_suppliedOf ⟨item, member, id, projects, rfl⟩,
    eq_named_of_resolve found member projects⟩

/-- A variable that items pass on is exported safely: itself, or the elements of the path that it
is.
-/
theorem Refined.exportsOf (refined : query.Refined catalog true vars)
    (present : (query.vars.get? id).isSome) (resolved : query.vars.resolve id = id)
    : Safely (fun exports => ∃ exported ∈ exports, exported.id = id ∨ vars.NamesElement exported.id)
        (exportsOf vars id) := by
  obtain ⟨old, found⟩ := Option.isSome_iff_exists.mp present
  obtain ⟨var, found', -⟩ := refined.grows.kept found
  obtain ⟨order, ordered⟩ := refined.ordered
  have definition := VarTable.definition?_of_get? found'
  have type : vars.type? id = var.definition.type? := by
    rw [VarTable.type?, refined.resolve, resolved, definition, Option.bind_some]
  unfold Plan.exportsOf
  rw [definition]
  cases kind : var.definition with
  | path hops elements =>
      have linked := refined.linked found'
      rw [kind] at linked
      obtain ⟨-, chain⟩ := linked
      match elements, chain with
      | [node], stands =>
          exact ⟨.entity node, by simp, .inr (VarTable.StandsForNode.namesElement stands ordered)⟩
      | left :: _ :: _ :: _, ⟨stands, _⟩ =>
          exact ⟨.entity left, by simp, .inr (VarTable.StandsForNode.namesElement stands ordered)⟩
  | node pattern =>
      simp only [type, kind, Definition.type?]
      exact ⟨.entity id, by simp, .inl rfl⟩
  | relationship rel =>
      simp only [type, kind, Definition.type?]
      exact ⟨.entity id, by simp, .inl rfl⟩
  | temporary column =>
      simp only [type, kind, Definition.type?]
      exact ⟨.scalar id, by simp, .inl rfl⟩
  | projected expr own =>
      have scalar : own = some .scalar := by
        have agrees := refined.agrees id var found'
        rw [kind] at agrees
        refine agrees rfl ?_
        rintro target rfl
        have last := ordered.target?_resolve id
        rw [refined.resolve, resolved, VarTable.target?, definition, Option.bind_some, kind] at last
        simp [Definition.target?] at last
      subst scalar
      simp only [type, kind, Definition.type?]
      exact ⟨.scalar id, by simp, .inl rfl⟩

/-- The exports of a subquery are found safely, and hold on to its items. -/
theorem Refined.subqueryExports {subquery : Subquery} (refined : query.Refined catalog true vars)
    (found : query.models[subquery.scope.index]? = some model) (kind : model.kind = .withClause)
    (items : subquery.scope.items = model.items) (unset : subquery.exports = [])
    : Safely (Subquery.Exports vars subquery) (subqueryExports vars subquery) := by
  obtain ⟨order, ordered⟩ := query.collected.ordered
  unfold Plan.subqueryExports
  rw [unset, refined.projected_eq found kind .findExports items]
  simp only [List.isEmpty_nil, Bool.not_true, Bool.false_eq_true, if_false, Safely.ok_bind]
  have exportsEach : ∀ id ∈ passedOn query.vars model.items,
      Safely (fun exports =>
          ∃ exported ∈ exports, exported.id = id ∨ vars.NamesElement exported.id)
        (Plan.exportsOf vars id) := by
    intro id member
    obtain ⟨item, listed, projected, projects, rfl⟩ := mem_passedOn.mp member
    refine refined.exportsOf ?_ (ordered.resolve_resolve projected)
    obtain ⟨var, present, -⟩ :=
      scope_of_mem_suppliedOf found (PassesOn.mem_suppliedOf (mem_passedOn.mp member))
    simp [present]
  refine (Safely.mapM exportsEach).bind fun exports lists =>
    Safely.pure_iff.mpr ⟨rfl, rfl, fun item member => ?_⟩
  rw [items] at member ⊢
  obtain ⟨id, projects⟩ := exists_projected found kind member
  have passed : query.vars.resolve id ∈ passedOn query.vars model.items :=
    mem_passedOn.mpr ⟨item, member, id, projects, rfl⟩
  obtain ⟨position, at'⟩ := List.mem_iff_getElem?.mp passed
  obtain ⟨own, present, exported, listed, holds⟩ := forall₂_getElem?_left lists at'
  refine ⟨exported, mem_foldl_new.mpr (.inr ?_), ?_⟩
  · exact List.mem_flatten.mpr ⟨own, List.mem_of_getElem? present, listed⟩
  · rcases holds with same | names
    · exact .inr (same ▸ eq_named_of_resolve found member projects)
    · exact .inl names

/-- A subquery of arranged scopes projects what its `WITH` does. -/
theorem exists_with {tree : Tree} {housed : Scope → Prop}
    (each : tree.Each query.models fun model scope =>
      query.Joined catalog model scope ∧ housed scope)
    {position : Nat} {subquery : Subquery} (at' : tree.subqueries[position]? = some subquery)
    : ∃ model,
        query.models[position]? = some model
        ∧ model.kind = .withClause
        ∧ subquery.scope.items = model.items := by
  obtain ⟨model, found, joined, -⟩ := each.each subquery.scope
    (Tree.mem_scopes.mpr (.inl ⟨subquery, List.mem_of_getElem? at', rfl⟩))
  rw [each.subquery_index at'] at found
  have length := each.length
  have within := (List.getElem?_eq_some_iff.mp at').1
  exact ⟨model, found, query.collected.kinds.withClause found (by omega),
    congrArg Scope.items joined.frame⟩

/-- The sources and items of an arranged scope are settled. -/
theorem Joined.settled {scope : Scope} (joined : query.Joined catalog model scope)
    (refined : query.Refined catalog true vars) (projecting : query.Projecting)
    (found : query.models[scope.index]? = some model)
    (housed : ∀ item ∈ scope.select.items, vars.Housed item)
    : scope.Settled vars := by
  have items : scope.items = model.items := congrArg Scope.items joined.frame
  obtain ⟨order, ordered⟩ := query.collected.ordered
  obtain ⟨orderLater, orderedLater⟩ := refined.ordered
  have inScope := (query.collected.inScope found).grow refined.grows ordered orderedLater
  refine {
    sources := fun item member =>
      ⟨(joined.sound item member).1, (joined.sound item member).2, housed item member⟩
    reads := joined.reads
    joins := fun join => joined.joined_source found
    declares := ?_
    namedOnce := items ▸ inScope.namedOnce
    projects := items ▸ projecting model (List.mem_of_getElem? found)
  }
  intro item member
  have holds := inScope.items item (items ▸ member)
  cases item with
  | named id =>
      obtain ⟨var, expr, type, present, here, definition, -⟩ := holds
      exact ⟨var, expr, type, present, here, definition⟩
  | unnamed expr column => exact holds.2.2

end QueryModel

/-- The exports of all subqueries are found safely, and leave a firm draft. -/
theorem findExports_safely {query : QueryModel} {catalog : Catalog} {draft : Draft}
    (refined : query.Refined catalog true draft.vars) (projecting : query.Projecting)
    (each
      : draft.tree.Each query.models fun model scope =>
          query.Joined catalog model scope ∧ ∀ item ∈ scope.select.items, draft.vars.Housed item)
    (named : ∀ subquery ∈ draft.tree.subqueries, subquery.Named)
    : Safely Draft.Firm (findExports draft) := by
  unfold findExports
  have exported : ∀ subquery ∈ draft.tree.subqueries,
      Safely (Subquery.Exports draft.vars subquery) (subqueryExports draft.vars subquery) := by
    intro subquery member
    obtain ⟨position, at'⟩ := List.mem_iff_getElem?.mp member
    obtain ⟨model, found, kind, items⟩ := QueryModel.exists_with each at'
    have index := each.subquery_index at'
    exact refined.subqueryExports (index.symm ▸ found) kind items (named subquery member).exports
  refine (Safely.mapM exported).bind fun subqueries all => Safely.pure_iff.mpr ?_
  · -- Only the lists of exports change, the scopes of the subqueries do not.
    have scopes : ({ draft.tree with subqueries } : Tree).scopes = draft.tree.scopes := by
      rw [Tree.scopes, Tree.scopes]
      congr 1
      exact map_eq_of_forall₂ all fun _ _ exports => exports.scope
    have exported {position : Nat} {subquery : Subquery}
      (at' : subqueries[position]? = some subquery)
        : ∃ old,
            draft.tree.subqueries[position]? = some old
              ∧ Subquery.Exports draft.vars old subquery :=
      forall₂_getElem?_right all at'
    have anchored : ({ draft.tree with subqueries } : Tree).ExportsAnchored draft.vars := by
      intro subquery member item listed
      obtain ⟨position, at'⟩ := List.mem_iff_getElem?.mp member
      obtain ⟨old, -, exports⟩ := exported at'
      rw [exports.scope] at listed ⊢
      exact exports.anchored item listed
    have settled : ∀ scope ∈ draft.tree.scopes, scope.Settled draft.vars := by
      intro scope member
      obtain ⟨model, found, joined, housed⟩ := each.each scope member
      exact joined.settled refined projecting found housed
    refine ⟨{
      indexed := ?_
      scopes := scopes ▸ settled
      names := ?_
      exports := ?_
      supplied := ?_
    }, anchored⟩
    · rw [Tree.Indexed, scopes, each.indexed, ← each.length]
      exact congrArg (fun count => List.range (count + 1)) all.length_eq
    · intro subquery member
      obtain ⟨position, at'⟩ := List.mem_iff_getElem?.mp member
      obtain ⟨old, present, exports⟩ := exported at'
      rw [exports.name]
      exact (named old (List.mem_of_getElem? present)).name
    · intro subquery member
      refine anchored.exports_ne_nil member ?_
      have isScope := Tree.mem_scopes.mpr (.inl ⟨subquery, member, rfl⟩)
      exact (settled _ (scopes ▸ isScope)).projects
    · intro scope member item listed source subquery isSubquery at'
      rw [scopes] at member
      obtain ⟨model, found, joined, -⟩ := each.each scope member
      obtain ⟨behind, ids⟩ := joined.subquery (List.mem_append_left _ listed) isSubquery
      obtain ⟨old, present, exports⟩ := exported at'
      obtain ⟨before, found', kind, items⟩ := QueryModel.exists_with each present
      rw [← behind, itemsBefore, found', Option.elim_some] at ids
      rw [exports.scope, items, ids]
      exact QueryModel.anchored_suppliedOf found' kind

theorem knownCall_safely (name : String) (args : List Expr)
    : Safely (fun _ => True) (knownCall name args) := by
  unfold knownCall
  split <;> simp [Cause.category]

/-- A function is simplified safely, and a variable stays as it is. -/
theorem simplifyFunction_safely (vars : VarTable) (expr : Expr)
    : Safely (fun _ => True) (simplifyFunction vars expr) := by
  unfold simplifyFunction
  split
  · rename_i name args
    unfold simplifyCall
    split
    · unfold simplifyId
      split
      · split <;> simp [Cause.category]
      · simp [Cause.category]
    · split
      · split
        · trivial
        · exact knownCall_safely name args
      · exact knownCall_safely name args
  · trivial
  · trivial

/-- Functions are simplified safely. -/
theorem Draft.Firm.simplifyFunctions {draft : Draft} (firm : draft.Firm)
    : Safely Draft.Firm (simplifyFunctions draft) := by
  have keeps : RewritesKeep Safely.modality
      (fun vars _ expr => expr.mapPartsM (simplifyFunction vars)) VarTable.Rewrites := by
    refine rewritesKeep_rewrites _ fun vars _ expr => ?_
    cases expr with
    | var id =>
        rintro _ ⟨⟩ -
        rfl
    | _ =>
        refine Safely.modality.mono
          (Expr.mapPartsM_holds Safely.modality (simplifyFunction_safely vars) _) ?_
        simp
  refine Safely.mono (draft.mapExprsM_keeps Safely.modality VarTable.Rewrites.threads keeps
    VarTable.rewrites_refresh) ?_
  rintro later ⟨maps, rewrites⟩
  exact firm.rewrite maps rewrites

/-- Rewriting that leaves names of nodes and relationships alone keeps a draft firm. -/
theorem Draft.Firm.mapExprs {draft : Draft} (firm : draft.Firm) {f : VarTable → Site → Expr → Expr}
    (keeps : ∀ vars site target, vars.NamesElement target → f vars site (.var target) = .var target)
    : (draft.mapExprs f).Firm := by
  have keeps : RewritesKeep Modality.ofId (fun vars site expr => pure (f vars site expr))
      VarTable.Rewrites := by
    refine rewritesKeep_rewrites _ fun vars site expr => ?_
    rintro target rfl names
    exact keeps vars site target names
  obtain ⟨maps, rewrites⟩ := draft.mapExprsM_keeps Modality.ofId VarTable.Rewrites.threads keeps
    VarTable.rewrites_refresh
  exact firm.rewrite maps rewrites

theorem Draft.Firm.simplifyProperties {draft : Draft} (firm : draft.Firm)
    : (simplifyProperties draft).Firm :=
  firm.mapExprs fun _ _ _ _ => rfl

theorem Draft.Firm.inlineConstants {draft : Draft} (firm : draft.Firm)
    : (inlineConstants draft).Firm := by
  refine Draft.Firm.dropConstants (firm.mapExprs fun vars site target names => ?_)
  split
  · rfl
  · change inlineConstant vars site.scope (.var target) = .var target
    simp [inlineConstant, names.constant?_eq_none]

/-- Noting that a property is read keeps everything else. -/
theorem markRead_rewrites (vars : VarTable) (read : PropertyRead)
    : vars.Rewrites (markRead vars read) := by
  unfold markRead
  dsimp only
  split
  · rename_i definition marked
    obtain ⟨old, found, required⟩ := Option.bind_eq_some_iff.mp marked
    obtain ⟨var, present, rfl⟩ := VarTable.definition?_eq_some.mp found
    refine VarTable.rewrites_redefine present ?_ ?_
    · cases kind : var.definition with
      | node pattern =>
          rw [kind] at required
          obtain rfl := Option.some.inj required
          rfl
      | relationship rel =>
          rw [kind] at required
          obtain rfl := Option.some.inj required
          rfl
      | _ => simp [kind, Definition.require?] at required
    · intro target type projected
      simp [projected, Definition.require?] at required
  · exact VarTable.Rewrites.threads.refl vars

/-- Noting all properties that are read keeps everything else, by induction over them. -/
theorem foldl_markRead_rewrites (reads : List PropertyRead) (vars : VarTable)
    : vars.Rewrites (reads.foldl markRead vars) := by
  induction reads generalizing vars with
  | nil => exact VarTable.Rewrites.threads.refl vars
  | cons read rest ih =>
      exact VarTable.Rewrites.threads.trans _ _ _ (markRead_rewrites vars read) (ih _)

theorem Draft.Firm.markProperties {draft : Draft} (firm : draft.Firm)
    : (markProperties draft).Firm :=
  firm.rewrite draft.tree.maps_alike_refl (foldl_markRead_rewrites _ _)

/-- Putting variables in place of other names keeps a tree settled. -/
theorem Draft.Firm.settled_resolveNames {draft : Draft} (firm : draft.Firm)
    : (resolveNames draft).tree.Settled (resolveNames draft).vars := by
  have keeps : RewritesKeep Modality.ofId
      (fun vars _ expr => pure (expr.mapParts (resolveName vars))) VarTable.SameStamps :=
    rewritesKeep_sameStamps _ fun _ _ _ => trivial
  obtain ⟨maps, same⟩ := draft.mapExprsM_keeps Modality.ofId VarTable.SameStamps.threads keeps
    fun vars id => (VarTable.rewrites_refresh vars id).stamps
  exact firm.settled.alike maps same

end CypherSql.Plan
