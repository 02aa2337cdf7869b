import CypherSql.Proofs.Integrity.Constants
import CypherSql.Proofs.Integrity.Sources
import CypherSql.Proofs.VariableModel

/-! Every variable that a query mentions is declared, from the collection of its variables to the
end of lowering, and the dependencies that the table keeps are those of its definitions. The steps
from the finding of exports on keep a draft intact.
-/

namespace CypherSql.Plan

section Simplification

variable {draft later : Draft} {vars : VarTable} {declared : List VarId}

/-- The exports of a variable are of itself or of the elements of the path that it is. -/
theorem exportsOf_upto {id : VarId} {index : Nat} {exports : List Export} (layered : vars.Layered)
    (upto : vars.Upto index id) (succeeded : exportsOf vars id = .ok exports)
    : ∀ exported ∈ exports, vars.Upto index exported.id := by
  unfold exportsOf at succeeded
  split at succeeded
  · cases succeeded
  · rename_i hops elements found
    obtain rfl := Except.ok.inj succeeded
    obtain ⟨var, present, definition⟩ := VarTable.definition?_eq_some.mp found
    intro exported listed
    obtain ⟨element, member, rfl⟩ := List.mem_map.mp listed
    refine layered.closed_upto index id var element present upto ?_
    rw [definition]
    exact NameSet.mem_ofList.mpr member
  · split at succeeded
    · obtain rfl := Except.ok.inj succeeded
      simpa [Export.id] using upto
    · obtain rfl := Except.ok.inj succeeded
      simpa [Export.id] using upto
    · obtain rfl := Except.ok.inj succeeded
      simpa [Export.id] using upto
    · cases succeeded

/-- A layered scope projects what is declared in it or before it. -/
theorem Scope.Layered.projected {scope : Scope} {order ids : List VarId}
    (layered : scope.Layered vars)
    (layeredVars : vars.Layered) (ordered : vars.Ordered order) {step : Step}
    (succeeded : projected step vars scope = .ok ids)
    : ∀ id ∈ ids, vars.Upto scope.index id := by
  have listed : ids = addNew [] ((scope.items.filterMap Item.projected?).map vars.resolve) := by
    unfold Plan.projected at succeeded
    split at succeeded
    · cases succeeded
    · exact (Except.ok.inj succeeded).symm
  intro id member
  rw [listed, mem_addNew] at member
  obtain ⟨target, inItems, rfl⟩ := List.mem_map.mp (member.resolve_left (by simp))
  obtain ⟨item, isItem, projects⟩ := List.mem_filterMap.mp inItems
  refine (layeredVars.closed_upto scope.index).resolve ordered ?_
  cases item with
  | named own =>
      obtain rfl := Option.some.inj projects
      obtain ⟨var, expr, type, found, here, -⟩ := layered.items _ isItem
      exact ⟨var, found, Nat.le_of_eq here⟩
  | unnamed expr column =>
      have within := layered.refers.items expr column isItem
      cases expr with
      | var own =>
          obtain rfl := Option.some.inj projects
          exact (Expr.within_var.mp within).upto
      | _ => cases projects

/-- Finding the exports keeps a draft layered. -/
theorem Draft.Layered.findExports (layered : draft.Layered)
    (coherent : draft.vars.Coherent declared)
    (succeeded : findExports draft = .ok later)
    : later.Layered := by
  obtain ⟨order, -, ordered⟩ := coherent.inOrder
  obtain ⟨subqueries, found, same⟩ := bind_eq_ok.mp succeeded
  obtain rfl := Except.ok.inj same
  have all := Modality.forall₂_of_mapM_eq_ok found
  have scopes : ({ draft.tree with subqueries } : Tree).scopes = draft.tree.scopes :=
    findExports_scopes succeeded
  refine ⟨layered.vars, fun scope member => ?_, fun subquery member exported listed => ?_⟩
  · exact layered.tree.scopes scope (scopes ▸ member)
  · obtain ⟨position, at'⟩ := List.getElem?_of_mem member
    obtain ⟨old, present, succeeded⟩ := forall₂_getElem?_right all at'
    rw [(subqueryExports_covers succeeded).1]
    have isScope := layered.tree.scopes _ (Tree.mem_scopes.mpr
      (.inl ⟨old, List.mem_of_getElem? present, rfl⟩))
    unfold subqueryExports at succeeded
    split at succeeded
    · cases succeeded
    · obtain ⟨ids, projects, exports⟩ := bind_eq_ok.mp succeeded
      obtain ⟨exports, each, same⟩ := bind_eq_ok.mp exports
      obtain rfl := Except.ok.inj same
      obtain ⟨own, inExports, isOwn⟩ := List.mem_flatten.mp
        ((mem_foldl_new.mp listed).resolve_left (by simp))
      obtain ⟨position, at'⟩ := List.getElem?_of_mem inExports
      obtain ⟨id, ofId, found⟩ := forall₂_getElem?_right (Modality.forall₂_of_mapM_eq_ok each) at'
      have upto := isScope.projected layered.vars ordered projects id (List.mem_of_getElem? ofId)
      exact exportsOf_upto layered.vars upto found exported isOwn

namespace Draft.Intact

/-- Rewriting the expressions of a draft keeps it intact. -/
theorem mapExprsM {m : Type → Type} [Monad m] [LawfulMonad m] (modality : Modality m)
    {f : VarTable → Site → Expr → m Expr}
    (any : ∀ {α : Type} (result : m α), modality.Holds (fun _ => True) result)
    (within : RewritesWithin modality f) (names : RewritesNames modality f)
    (intact : draft.Intact declared)
    : modality.Holds (Draft.Intact declared) (draft.mapExprsM f) := by
  have layered := intact.layered.mapExprsM within names intact.coherent
  have coherent := Draft.mapExprsM_coherent modality any within names intact.coherent
  have rewords : RewritesKeep modality f VarTable.Reworded :=
    rewritesKeep_reworded modality fun _ _ _ => any _
  have keeps := draft.mapExprsM_keeps modality VarTable.Reworded.threads rewords
    VarTable.reworded_refresh
  refine modality.mono (modality.and layered (modality.and coherent keeps)) ?_
  intro later ⟨layered, coherent, maps, reworded⟩
  refine {
    layered := layered
    coherent := coherent
    handsOver := intact.handsOver.alike maps reworded.stamps
    namedOnce := fun scope member => ?_
  }
  obtain ⟨old, present, alike⟩ := maps.of_mem member
  exact namedIds_alike alike.items ▸ intact.namedOnce old present

theorem mapExprs {f : VarTable → Site → Expr → Expr}
    (within : RewritesWithin Modality.ofId fun vars site expr => pure (f vars site expr))
    (names
      : ∀ {vars target} (site : Site),
          vars.StandsForNode target
          → f vars site (.var target) = .var target
            ∨ f vars site (.var target) = .var (vars.resolve target))
    (intact : draft.Intact declared)
    : (draft.mapExprs f).Intact declared :=
  mapExprsM Modality.ofId (fun _ => trivial) within names intact

theorem simplifyFunctions (intact : draft.Intact declared)
    (succeeded : simplifyFunctions draft = .ok later)
    : later.Intact declared := by
  refine mapExprsM Modality.ofOk Modality.ofOk_any simplifyFunctions_within ?_ intact
    later succeeded
  intro vars target _ _ changed same
  exact .inl (Except.ok.inj same).symm

theorem simplifyProperties (intact : draft.Intact declared)
    : (simplifyProperties draft).Intact declared :=
  mapExprs simplifyProperties_within (fun _ _ => .inl rfl) intact

theorem inlineConstants (intact : draft.Intact declared)
    : (inlineConstants draft).Intact declared :=
  (mapExprs inlineConstants_within (fun site stands => .inl (inlineConstants_names site stands))
    intact).dropConstants

theorem resolveNames (intact : draft.Intact declared) : (resolveNames draft).Intact declared :=
  mapExprs resolveNames_within (fun _ _ => .inr rfl) intact

/-- Noting the properties that are read changes nothing that a definition refers to. -/
theorem markProperties (intact : draft.Intact declared)
    : (markProperties draft).Intact declared := by
  have marked (reads : List PropertyRead) {vars : VarTable} (layered : vars.Layered)
      : (reads.foldl markRead vars).Layered := by
    induction reads generalizing vars with
    | nil => exact layered
    | cons read rest ih =>
        refine ih ?_
        obtain same | ⟨id, var, definition, present, outline, restriction, same⟩ :=
          Draft.markRead_cases vars read
        · rwa [same]
        · rw [same]
          exact layered.redefine present outline restriction
  have same := (foldl_markRead_rewrites (propertyReads draft.tree draft.vars) draft.vars).stamps
  exact {
    layered := ⟨marked _ intact.layered.vars, intact.layered.tree.stamps same⟩
    coherent := Draft.markProperties_coherent intact.coherent
    handsOver := intact.handsOver.alike draft.tree.maps_alike_refl same
    namedOnce := intact.namedOnce
  }

end Draft.Intact

end Simplification

/-- A scope mentions a variable in an expression, in its projection, as part of a pattern or as what
a source supplies.
-/
inductive Scope.Mentions (scope : Scope) (id : VarId) : Prop where
  | expression {expr} (listed : expr ∈ scope.expressions) (refers : id ∈ expr.references)
  | named (listed : .named id ∈ scope.items)
  | column {expr} (listed : .unnamed expr id ∈ scope.items)
  | pattern {clause} (listed : clause ∈ scope.clauses)
    (declared : id ∈ clause.ids ∨ id ∈ clause.relationships)
  | source {item} (listed : item ∈ scope.select.items) (supplied : id ∈ item.ids)

/-- A tree mentions a variable in a scope or as an export. -/
inductive Tree.Mentions (tree : Tree) (id : VarId) : Prop where
  | scope {scope} (member : scope ∈ tree.scopes) (mentions : scope.Mentions id)
  | exported {subquery exported} (member : subquery ∈ tree.subqueries)
    (listed : exported ∈ subquery.exports) (same : exported.id = id)

/-- The dependencies are those of the definitions, except that temporary variables have none, and no
definition mentions a variable that is not declared.
-/
structure VarTable.Consistent (vars : VarTable) : Prop where
  recorded
    : ∀ {id var},
        vars.get? id = some var
        → var.definition.isTemporary = false
        → vars.dependencies.get? id = some (var.definition.dependencies id)
  temporary
    : ∀ {id var},
        vars.get? id = some var
        → var.definition.isTemporary = true
        → vars.dependencies.get? id = none
  undeclared : ∀ {id}, vars.get? id = none → vars.dependencies.get? id = none
  mentions
    : ∀ {id var other},
        vars.get? id = some var → var.definition.Mentions other → (vars.get? other).isSome

/-- Variables in order of their declaration are consistent. -/
theorem VarTable.Ordered.consistent {vars : VarTable} {order : List VarId}
    (ordered : vars.Ordered order)
    : vars.Consistent := by
  refine {
    recorded := fun found permanent => by simp [ordered.recorded, found, permanent]
    temporary := fun found temporary => by simp [ordered.recorded, found, temporary]
    undeclared := fun absent => by simp [ordered.recorded, absent]
    mentions := ?_
  }
  intro id var other found mentions
  by_cases same : other = id
  · simp [same, found]
  · have depends := mentions.mem_dependencies same
    exact (ordered.declared other).mp (ordered.earlier found other depends).1

/-- A layered scope mentions declared variables only. -/
theorem Scope.Layered.declared {vars : VarTable} {scope : Scope} (layered : scope.Layered vars)
    {id : VarId} (mentions : scope.Mentions id)
    : (vars.get? id).isSome := by
  cases mentions with
  | expression listed refers =>
      have within := layered.refers.expressions (fun _ before => before.upto) listed
      exact (within id refers).isSome
  | named listed =>
      obtain ⟨var, expr, type, found, -, -⟩ := layered.items _ listed
      simp [found]
  | column listed =>
      obtain ⟨name, temporary⟩ := layered.items _ listed
      obtain ⟨var, found, -⟩ := VarTable.definition?_eq_some.mp temporary
      simp [found]
  | pattern listed declared =>
      obtain ⟨definition, found, -⟩ := layered.clauses _ listed id declared
      obtain ⟨var, found, -⟩ := VarTable.definition?_eq_some.mp found
      simp [found]
  | source listed supplied =>
      have supplies := layered.sources _ listed id supplied
      split at supplies
      · exact supplies.2.isSome
      · exact supplies.2.isSome

/-- A layered draft mentions declared variables only. -/
theorem Draft.Layered.declared {draft : Draft} (layered : draft.Layered) {id : VarId}
    (mentions : draft.tree.Mentions id)
    : (draft.vars.get? id).isSome := by
  cases mentions with
  | scope member mentions => exact (layered.tree.scopes _ member).declared mentions
  | exported member listed same =>
      subst same
      exact (layered.tree.exports _ member _ listed).isSome

section Runs

variable {query : QueryModel} {catalog : Catalog} {draft later : Draft} {declared : List VarId}
  {step : Step}

/-- Up to the arrangement of the joins the table refines the model of the query, and nothing is
exported.
-/
theorem QueryModel.After.refined (after : query.After catalog draft step)
    (early : step ∈ Step.arrangeJoins.upTo)
    : query.Refined catalog true draft.vars
      ∧ ∀ subquery ∈ draft.tree.subqueries, subquery.exports = [] := by
  cases step with
  | inferTypes =>
      obtain ⟨empty, -, refined, -⟩ := after
      exact ⟨refined, by simp [empty, Tree.empty]⟩
  | buildScopes => exact ⟨after.1, fun subquery member => (after.2.2.2 subquery member).exports⟩
  | nameSubqueries => exact ⟨after.1, fun subquery member => (after.2.2.2 subquery member).exports⟩
  | findSources => exact ⟨after.1, fun subquery member => (after.2.2.2 subquery member).exports⟩
  | moveRestrictions =>
      exact ⟨after.1, fun subquery member => (after.2.2.2 subquery member).exports⟩
  | resolveTables => exact ⟨after.1, fun subquery member => (after.2.2 subquery member).exports⟩
  | arrangeJoins => exact ⟨after.1, fun subquery member => (after.2.2 subquery member).exports⟩
  | _ => exact absurd early (by decide)

/-- A draft is layered after each step up to the arrangement of the joins. -/
theorem QueryModel.Layered.early (layered : query.Layered)
    (after : query.After catalog draft .collectVariables) (early : step ∈ Step.arrangeJoins.upTo)
    (runs : Plan.runSteps catalog step.upTo draft = .ok later)
    : later.Layered := by
  obtain ⟨refined, unexported⟩ := (after.early early runs).refined early
  have scopes := layered.scopesLayered after early runs
  refine ⟨layered.vars.grow refined.grows refined.same, ?_, ?_⟩
  · exact fun scope member => (scopes scope member).grow refined.grows
  · intro subquery member exported listed
    simp [unexported subquery member] at listed

/-- The finding of exports leaves an intact draft. -/
theorem Draft.Layered.intact_of_findExports (layered : draft.Layered)
    (coherent : draft.vars.Coherent declared) (after : query.After catalog draft .arrangeJoins)
    (succeeded : Plan.findExports draft = .ok later)
    : later.Intact declared := by
  obtain ⟨refined, each, -⟩ := after
  refine {
    layered := layered.findExports coherent succeeded
    coherent := Draft.findExports_vars succeeded ▸ coherent
    handsOver := findExports_handsOver refined each succeeded
    namedOnce := ?_
  }
  intro scope member
  rw [findExports_scopes succeeded] at member
  obtain ⟨model, found, joined, -⟩ := each.each scope member
  have items : scope.items = model.items := congrArg Scope.items joined.frame
  exact items ▸ (query.collected.inScope found).namedOnce

/-- Each step after the finding of exports keeps a draft intact. -/
theorem Draft.Intact.runStep (intact : draft.Intact declared)
    (late : step ∉ .collectVariables :: Step.findExports.upTo)
    (succeeded : Plan.runStep catalog step draft = .ok later)
    : later.Intact declared := by
  cases step with
  | simplifyFunctions => exact intact.simplifyFunctions succeeded
  | simplifyProperties =>
      obtain rfl := Except.ok.inj succeeded
      exact intact.simplifyProperties
  | inlineConstants =>
      obtain rfl := Except.ok.inj succeeded
      exact intact.inlineConstants
  | markProperties =>
      obtain rfl := Except.ok.inj succeeded
      exact intact.markProperties
  | resolveNames =>
      obtain rfl := Except.ok.inj succeeded
      exact intact.resolveNames
  | mergeVariants =>
      obtain rfl := Except.ok.inj succeeded
      exact intact
  | _ => exact absurd (by decide) late

/-- A run of such steps keeps a draft intact, by induction over the steps. -/
theorem Draft.Intact.runSteps {steps : List Step} (intact : draft.Intact declared)
    (late : ∀ step ∈ steps, step ∉ .collectVariables :: Step.findExports.upTo)
    (runs : Plan.runSteps catalog steps draft = .ok later)
    : later.Intact declared := by
  induction steps generalizing draft with
  | nil =>
      obtain rfl := Except.ok.inj runs
      exact intact
  | cons step rest ih =>
      obtain ⟨first, others⟩ := List.forall_mem_cons.mp late
      obtain ⟨middle, runsFirst, runs⟩ := bind_eq_ok.mp runs
      exact ih (intact.runStep first runsFirst) others runs

/-- A step of the pipeline is among those that arrange the joins, or exports are found first. -/
theorem Step.upTo_exports {step : Step} (member : step ∈ Step.pipeline)
    (late : step ∉ Step.arrangeJoins.upTo)
    : step.upTo = Step.arrangeJoins.upTo ++ .findExports :: step.upTo.drop 8
      ∧ ∀ other ∈ step.upTo.drop 8, other ∉ .collectVariables :: Step.findExports.upTo := by
  revert step
  decide

/-- The draft of a query is layered after every step of the pipeline. -/
theorem QueryModel.Layered.of_runSteps (layered : query.Layered)
    (inOrder : query.vars.Ordered declared) (after : query.After catalog draft .collectVariables)
    (member : step ∈ Step.pipeline) (runs : Plan.runSteps catalog step.upTo draft = .ok later)
    : later.Layered := by
  by_cases early : step ∈ Step.arrangeJoins.upTo
  · exact layered.early after early runs
  · obtain ⟨split, late⟩ := Step.upTo_exports member early
    obtain ⟨arranged, first, rest⟩ := exists_of_runSteps_append (split ▸ runs)
    obtain ⟨exported, finds, others⟩ := bind_eq_ok.mp rest
    have afterArranged := (after.arranged first).2
    have coherent := afterArranged.coherent (by decide) inOrder
    have intact :=
      (layered.early after (by decide) first).intact_of_findExports coherent afterArranged
      finds
    exact (intact.runSteps late others).layered

end Runs

/-- The references of a query lead to variables. When its variables are collected and after every
step of lowering, whatever its scopes mention is declared, and the table of the variables is
consistent. So no constant is dropped that anything still refers to.
-/
theorem references_declared {query : Cypher.Query} {walk : Walk}
    (collected : collect query = .ok walk)
    (catalog : Catalog)
    : walk.vars.Consistent
      ∧ (∀ (index : Nat) model id,
          walk.models[index]? = some model
          → (model.scope index).Mentions id
          → (walk.vars.get? id).isSome)
      ∧ ∀ start step later,
          Draft.ofQuery query = .ok start
          → step ∈ Step.pipeline
          → runSteps catalog step.upTo start = .ok later
          → later.vars.Consistent
            ∧ ∀ id, later.tree.Mentions id → (later.vars.get? id).isSome := by
  obtain ⟨inOrder, isCollected, -⟩ := (collect_safely query).of_ok collected
  obtain ⟨layeredVars, layeredModels⟩ := collect_layered collected
  refine ⟨inOrder.consistent, fun index model id found => (layeredModels found).declared, ?_⟩
  intro start step later begins member runs
  obtain ⟨order, -, ordered⟩ := (coherent_of_runSteps collected begins member runs).inOrder
  refine ⟨ordered.consistent, fun id => Draft.Layered.declared ?_⟩
  obtain ⟨same, collects, tree, models, vars⟩ := QueryModel.exists_of_ofQuery begins
  obtain rfl := Except.ok.inj (collected.symm.trans collects)
  have layered : QueryModel.Layered ⟨walk.vars, walk.models, isCollected⟩ :=
    ⟨layeredVars, layeredModels⟩
  exact layered.of_runSteps inOrder ⟨tree, models, vars⟩ member runs

/-- The query `MATCH (a) WITH a, 1 AS one RETURN a`. -/
def unusedConstant : Cypher.Query where
  clauses :=
    [.matching ⟨false, [⟨none, ⟨some "a", [], none⟩, []⟩], none⟩,
      .withItems
        ⟨false, [⟨.var "a", none, "a"⟩, ⟨.literal (.integer 1), some "one", "1"⟩], [],
          none, none⟩ none,
      .returnItems ⟨false, [⟨.var "a", none, "a"⟩], [], none, none⟩]

/-- Witness: a constant that nothing refers to is dropped, and nothing mentions it any more. -/
theorem unusedConstant_references_declared
    : ∃ walk start later,
        collect unusedConstant = .ok walk
        ∧ Draft.ofQuery unusedConstant = .ok start
        ∧ runSteps acquaintances.catalog Step.inlineConstants.upTo start = .ok later
        ∧ walk.vars.Consistent
        ∧ later.vars.Consistent
        ∧ later.vars.get? "one" = none
        ∧ ¬ later.tree.Mentions "one" := by
  have reached : ((draftAfter? acquaintances.catalog .inlineConstants unusedConstant).any
      fun later => (later.vars.get? "one").isNone) = true := by
    decide +kernel
  obtain ⟨later, reached, dropped⟩ := (Option.any_eq_true _ _).mp reached
  obtain ⟨start, begins, runs⟩ := draftAfter?_eq_some reached
  have dropped := Option.isNone_iff_eq_none.mp dropped
  obtain ⟨walk, collected, -⟩ := QueryModel.exists_of_ofQuery begins
  obtain ⟨first, -, rest⟩ := references_declared collected acquaintances.catalog
  obtain ⟨consistent, declared⟩ := rest start .inlineConstants later begins (by decide) runs
  refine ⟨walk, start, later, collected, begins, runs, first, consistent, dropped,
    fun mentioned => ?_⟩
  have found := declared "one" mentioned
  simp [dropped] at found

end CypherSql.Plan
