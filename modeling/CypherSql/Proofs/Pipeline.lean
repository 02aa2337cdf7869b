import Mathlib.Data.List.Chain
import CypherSql.Proofs.ParsedQueries
import CypherSql.Proofs.Passes.Simplification
import CypherSql.Proofs.Passes.Scopes

/-! The whole pipeline. Each step is safe on what the step before it leaves, and so is every run of
the steps in order.
-/

namespace CypherSql.Plan

/-- The steps of the pipeline up to one of them, that one included. -/
def Step.upTo (step : Step) : List Step :=
  Step.pipeline.takeWhile (· ≠ step) ++ [step]

/-- One step comes right after another. -/
def Step.Follows (step next : Step) : Prop :=
  (step, next) ∈ (Step.collectVariables :: Step.pipeline).zip Step.pipeline

instance (step next : Step) : Decidable (step.Follows next) :=
  inferInstanceAs (Decidable (_ ∈ _))

/-- The steps up to one of the pipeline follow each other, and it is the last of them. -/
theorem Step.upTo_follows {step : Step} (member : step ∈ Step.pipeline)
    : List.IsChain Step.Follows (Step.collectVariables :: step.upTo)
      ∧ (Step.collectVariables :: step.upTo).getLast? = some step := by
  revert step
  decide

/-- The steps up to an early one are early ones: those up to the finding of the sources and more, or
some of the steps before it.
-/
theorem Step.upTo_early {step : Step} (early : step ∈ Step.arrangeJoins.upTo)
    : step ∈ Step.pipeline
      ∧ (∀ next ∈ step.upTo, next ∈ Step.arrangeJoins.upTo)
      ∧ (step.upTo = Step.findSources.upTo ++ step.upTo.drop 4
          ∨ ∀ next ∈ step.upTo, next ∈ Step.nameSubqueries.upTo) := by
  revert step
  decide

namespace QueryModel

/-- What holds of the draft of a query after each step of the pipeline. -/
def After (query : QueryModel) (catalog : Catalog) (draft : Draft) : Step → Prop
  | .collectVariables =>
      draft.tree = .empty ∧ draft.models = query.models ∧ draft.vars = query.vars
  | .inferTypes =>
      draft.tree = .empty
      ∧ draft.models = query.models
      ∧ query.Refined catalog true draft.vars
      ∧ query.SameLabels draft.vars
  | .buildScopes =>
      query.Refined catalog true draft.vars
      ∧ query.SameLabels draft.vars
      ∧ draft.tree.Each query.models (fun model scope => scope = model.scope scope.index)
      ∧ ∀ subquery ∈ draft.tree.subqueries, subquery.Untouched
  | .nameSubqueries =>
      query.Refined catalog true draft.vars
      ∧ query.SameLabels draft.vars
      ∧ draft.tree.Each query.models (fun model scope => scope = model.scope scope.index)
      ∧ ∀ subquery ∈ draft.tree.subqueries, subquery.Named
  | .findSources =>
      query.Refined catalog true draft.vars
      ∧ query.SameLabels draft.vars
      ∧ draft.tree.Each query.models (fun model scope => scope = query.sourced model scope.index)
      ∧ ∀ subquery ∈ draft.tree.subqueries, subquery.Named
  | .moveRestrictions =>
      query.Refined catalog true draft.vars
      ∧ query.SameLabels draft.vars
      ∧ draft.tree.Each query.models (query.Prepared false)
      ∧ ∀ subquery ∈ draft.tree.subqueries, subquery.Named
  | .resolveTables =>
      query.Refined catalog true draft.vars
      ∧ draft.tree.Each query.models (fun model scope =>
          query.Prepared true model scope
          ∧ ∀ item ∈ scope.select.fromItems, draft.vars.Tabled item)
      ∧ ∀ subquery ∈ draft.tree.subqueries, subquery.Named
  | .arrangeJoins =>
      query.Refined catalog true draft.vars
      ∧ draft.tree.Each query.models (fun model scope =>
          query.Joined catalog model scope
          ∧ ∀ item ∈ scope.select.items, draft.vars.Housed item)
      ∧ ∀ subquery ∈ draft.tree.subqueries, subquery.Named
  | .findExports | .simplifyFunctions | .simplifyProperties | .inlineConstants
  | .markProperties => draft.Firm
  | .resolveNames | .mergeVariants => draft.tree.Settled draft.vars

/-- What a step asks of the query: that its scopes project something. -/
def Meets (query : QueryModel) : Step → Prop
  | .findSources | .arrangeJoins => query.Forwarding
  | .findExports => query.Projecting
  | _ => True

theorem Projecting.meets {query : QueryModel} (projecting : query.Projecting) (step : Step)
    : query.Meets step := by
  cases step <;> first | exact projecting | exact projecting.forwarding | trivial

theorem Forwarding.meets {query : QueryModel} (forwarding : query.Forwarding) {step : Step}
    (member : step ∈ Step.arrangeJoins.upTo)
    : query.Meets step := by
  cases step <;> first | exact forwarding | trivial

variable {query : QueryModel} {catalog : Catalog} {draft later : Draft} {step next : Step}

/-- Each step of the pipeline is safe after the one before it. -/
theorem After.step_safely (after : query.After catalog draft step) (meets : query.Meets next)
    (follows : step.Follows next)
    : Safely (fun later => query.After catalog later next) (runStep catalog next draft) := by
  simp only [Step.Follows, Step.pipeline, List.zip_cons_cons, List.zip_nil_right, List.mem_cons,
    Prod.mk.injEq, List.not_mem_nil, or_false] at follows
  rcases follows with ⟨rfl, rfl⟩ | ⟨rfl, rfl⟩ | ⟨rfl, rfl⟩ | ⟨rfl, rfl⟩ | ⟨rfl, rfl⟩ | ⟨rfl, rfl⟩
    | ⟨rfl, rfl⟩ | ⟨rfl, rfl⟩ | ⟨rfl, rfl⟩ | ⟨rfl, rfl⟩ | ⟨rfl, rfl⟩ | ⟨rfl, rfl⟩ | ⟨rfl, rfl⟩
  · obtain ⟨empty, models, start⟩ := after
    refine (inferTypes_safely catalog start).mono ?_
    rintro _ ⟨⟨vars, rfl⟩, refined, labels⟩
    exact ⟨empty, models, refined, labels⟩
  · obtain ⟨empty, models, refined, labels⟩ := after
    refine (buildScopes_safely empty models).mono ?_
    rintro later ⟨same, each, untouched⟩
    exact ⟨same ▸ refined, same ▸ labels, each, untouched⟩
  · obtain ⟨refined, labels, each, untouched⟩ := after
    refine (nameSubqueries_safely untouched).mono ?_
    rintro later ⟨same, scopes, named⟩
    refine ⟨same ▸ refined, same ▸ labels, ⟨?_, ?_⟩, named⟩
    · rw [scopes]
      exact each.indexed
    · rw [scopes]
      exact each.each
  · obtain ⟨refined, labels, each, named⟩ := after
    refine (findSources_safely refined meets each named).mono ?_
    rintro later ⟨same, each, named⟩
    exact ⟨same ▸ refined, same ▸ labels, each, named⟩
  · obtain ⟨refined, labels, each, named⟩ := after
    exact moveRestrictions_safely refined labels each named
  · obtain ⟨refined, labels, each, named⟩ := after
    exact resolveTables_safely refined labels each named
  · obtain ⟨refined, each, named⟩ := after
    exact arrangeJoins_safely refined meets each named
  · obtain ⟨refined, each, named⟩ := after
    exact findExports_safely refined meets each named
  · exact after.simplifyFunctions
  · exact after.simplifyProperties
  · exact after.inlineConstants
  · exact after.markProperties
  · exact after.settled_resolveNames

/-- Steps that follow each other are safe, by induction over them. -/
theorem After.steps_safely (after : query.After catalog draft step) {steps : List Step}
    (meets : ∀ next ∈ steps, query.Meets next) (follow : List.IsChain Step.Follows (step :: steps))
    : Safely (fun later =>
          ∀ last, (step :: steps).getLast? = some last → query.After catalog later last)
        (runSteps catalog steps draft) := by
  induction steps generalizing draft step with
  | nil =>
      rintro last ⟨⟩
      exact after
  | cons next rest ih =>
      obtain ⟨first, others⟩ := List.isChain_cons_cons.mp follow
      refine (after.step_safely (meets next (by simp)) first).bind fun later after => ?_
      refine (ih after (fun other member => meets other (by simp [member])) others).mono
        fun final reached last isLast => ?_
      exact reached last (by simpa using isLast)

/-- A run of steps is a run of the first ones and then of the others. -/
theorem exists_of_runSteps_append {first second : List Step}
    (runs : runSteps catalog (first ++ second) draft = .ok later)
    : ∃ middle,
        runSteps catalog first draft = .ok middle ∧ runSteps catalog second middle = .ok later := by
  rw [runSteps, List.foldlM_append] at runs
  cases before : runSteps catalog first draft with
  | error error =>
      rw [runSteps] at before
      rw [before] at runs
      cases runs
  | ok middle =>
      rw [runSteps] at before
      rw [before] at runs
      exact ⟨middle, rfl, runs⟩

/-- The pipeline up to one of its steps is safe. -/
theorem After.upTo_safely (after : query.After catalog draft .collectVariables) (step : Step)
    (member : step ∈ Step.pipeline) (meets : ∀ next ∈ step.upTo, query.Meets next)
    : Safely (fun later => query.After catalog later step) (runSteps catalog step.upTo draft) := by
  obtain ⟨follow, isLast⟩ := Step.upTo_follows member
  exact (after.steps_safely meets follow).mono fun later reached => reached step isLast

end QueryModel

/-- Scopes that fit models without faults are a tree without faults. -/
theorem Tree.Each.fault?_eq_none {models : List ScopeModel} {tree : Tree} {needsTables : Bool}
    {fits : ScopeModel → Scope → Prop} (each : tree.Each models fits)
    (sound
      : ∀ model scope,
          models[scope.index]? = some model
          → fits model scope
          → ∀ item ∈ scope.select.items,
              item.fault? needsTables = none
              ∧ ∀ source, item.source = some source → source + 1 = scope.index)
    : tree.fault? needsTables = none := by
  refine Tree.fault?_eq_none (fun scope member => ?_) fun scope member item inside => ?_
  · obtain ⟨model, found, -⟩ := each.each scope member
    have within := (List.getElem?_eq_some_iff.mp found).1
    have length := each.length
    omega
  · obtain ⟨model, found, fit⟩ := each.each scope member
    exact sound model scope found fit item inside

/-- Nothing is wrong with an item for want of a table that nobody asks for. -/
theorem Tree.fault?_false_eq_none {tree : Tree} (sound : tree.fault? true = none)
    : tree.fault? false = none := by
  refine List.findSome?_eq_none_iff.mpr fun item member => ?_
  have noFault := List.findSome?_eq_none_iff.mp sound item member
  obtain ⟨own, reads⟩ := Option.or_eq_none_iff.mp noFault
  refine Option.or_eq_none_iff.mpr ⟨?_, reads⟩
  unfold FromItem.fault? at own ⊢
  split <;> simp_all
  split <;> simp_all

namespace QueryModel

variable {query : QueryModel} {catalog : Catalog} {draft later : Draft} {step : Step}

/-- An item that may be placed has no fault but maybe a missing table, and reads the subquery before
its scope.
-/
theorem Placeable.sound {tabled : Bool} {index : Nat} {model : ScopeModel} {source item : FromItem}
    (placeable : query.Placeable index model tabled source item)
    (found : query.models[index]? = some model) (forwarding : query.Forwarding)
    : item.fault? false = none ∧ ∀ source, item.source = some source → source + 1 = index := by
  refine ⟨placeable.fault?_eq_none found forwarding nofun, fun source isSubquery => ?_⟩
  rcases placeable.subquery_or_table with ⟨before, index, own, -⟩ | ⟨_, _, _, -, -, own, -⟩
  · rw [own] at isSubquery
    cases isSubquery
    exact index.symm
  · simp [own] at isSubquery

/-- Prepared scopes are a tree without faults but maybe missing tables. -/
theorem Prepared.fault?_eq_none {tabled : Bool} {tree : Tree}
    (each : tree.Each query.models (query.Prepared tabled)) (forwarding : query.Forwarding)
    : tree.fault? false = none := by
  refine each.fault?_eq_none fun model scope found prepared item member => ?_
  rw [Select.items, prepared.joins, List.map_nil, List.append_nil] at member
  obtain ⟨position, at'⟩ := List.mem_iff_getElem?.mp member
  obtain ⟨source, -, placeable⟩ := forall₂_getElem?_right prepared.items at'
  exact placeable.sound found forwarding

/-- From the arrangement of joins on, the tree of a draft has no fault. -/
theorem After.fault?_true_eq_none (after : query.After catalog draft step)
    (member : step ∈ Step.pipeline) (arranged : .arrangeJoins ∈ step.upTo)
    : draft.tree.fault? true = none := by
  have firm (firm : draft.Firm) : draft.tree.fault? true = none := firm.settled.fault?_eq_none
  cases step with
  | arrangeJoins =>
      obtain ⟨-, each, -⟩ := after
      refine each.fault?_eq_none fun model scope found fit item member => ?_
      exact ⟨(fit.1.sound item member).2, fun source isSubquery =>
        (fit.1.subquery member isSubquery).1⟩
  | findExports => exact firm after
  | simplifyFunctions => exact firm after
  | simplifyProperties => exact firm after
  | inlineConstants => exact firm after
  | markProperties => exact firm after
  | resolveNames => exact Tree.Settled.fault?_eq_none after
  | collectVariables => exact absurd member (by decide)
  | mergeVariants => exact absurd member (by decide)
  | _ => exact absurd arranged (by decide)

/-- From the finding of sources on, the tree of a draft has no fault but missing tables. -/
theorem After.fault?_false_eq_none (after : query.After catalog draft step)
    (member : step ∈ Step.pipeline) (forwarding : query.Forwarding)
    (sourced : .findSources ∈ step.upTo)
    : draft.tree.fault? false = none := by
  by_cases arranged : .arrangeJoins ∈ step.upTo
  · exact Tree.fault?_false_eq_none (after.fault?_true_eq_none member arranged)
  · cases step with
    | findSources =>
        obtain ⟨-, -, each, -⟩ := after
        refine each.fault?_eq_none fun model scope found same item member => ?_
        have listed : item ∈ query.sources scope.index model := by
          rw [same] at member
          simpa [Select.items, QueryModel.sourced, ScopeModel.scope, Select.empty] using member
        have placeable : query.Placeable scope.index model false item item :=
          .ofSource (isSource_of_mem listed)
        exact placeable.sound found forwarding
    | moveRestrictions =>
        obtain ⟨-, -, each, -⟩ := after
        exact Prepared.fault?_eq_none each forwarding
    | resolveTables =>
        obtain ⟨-, each, -⟩ := after
        exact Prepared.fault?_eq_none (each.mono fun _ _ _ fit => fit.1) forwarding
    | collectVariables => exact absurd member (by decide)
    | _ => first | exact absurd sourced (by decide) | exact absurd (by decide) arranged

/-- The draft of a query has what was collected. -/
theorem exists_of_ofQuery {query : Cypher.Query} {start : Draft}
    (begins : Draft.ofQuery query = .ok start)
    : ∃ walk,
        collect query = .ok walk
        ∧ start.tree = .empty
        ∧ start.models = walk.models
        ∧ start.vars = walk.vars := by
  obtain ⟨walk, collected, same⟩ := bind_eq_ok.mp begins
  obtain rfl := Except.ok.inj same
  exact ⟨walk, collected, rfl, rfl, rfl⟩

/-- The variables of a query are collected safely. -/
theorem ofQuery_safely (query : Cypher.Query) (catalog : Catalog)
    : Safely (fun draft =>
          ∃ model : QueryModel,
            model.After catalog draft .collectVariables
            ∧ (Cypher.ProjectItems query.clauses → model.Projecting))
        (Draft.ofQuery query) := by
  refine (collect_safely query).bind fun walk ⟨_, collected, projecting⟩ => ?_
  exact ⟨⟨walk.vars, walk.models, collected⟩, ⟨rfl, rfl, rfl⟩, projecting⟩

/-- Where the sources of a query are found, every `WITH` of it projects something. -/
theorem After.forwarding (after : query.After catalog draft .collectVariables)
    (runs : runSteps catalog Step.findSources.upTo draft = .ok later)
    : query.Forwarding := by
  have last : Step.findSources.upTo = Step.nameSubqueries.upTo ++ [.findSources] := by decide
  rw [last] at runs
  obtain ⟨middle, names, finds⟩ := exists_of_runSteps_append runs
  obtain ⟨refined, -, each, -⟩ := (after.upTo_safely .nameSubqueries (by decide)
    (by simp [Step.upTo, Step.pipeline, Meets])).of_ok names
  have finds : findSources middle = .ok later := by simpa [runSteps, runStep] using finds
  exact forwarding_of_findSources refined each finds

/-- The query meets what the steps up to an early one ask of it where they succeed, whether or not
its text was read.
-/
theorem After.meets (after : query.After catalog draft .collectVariables)
    (early : step ∈ Step.arrangeJoins.upTo) (runs : runSteps catalog step.upTo draft = .ok later)
    : ∀ next ∈ step.upTo, query.Meets next := by
  obtain ⟨-, inside, sourced | unsourced⟩ := Step.upTo_early early
  · obtain ⟨middle, finds, -⟩ := exists_of_runSteps_append (sourced ▸ runs)
    have forwarding := after.forwarding finds
    exact fun next member => forwarding.meets (inside next member)
  · intro next member
    have named := unsourced next member
    cases next <;> trivial

/-- What holds after a step up to the arrangement of the joins, whether or not the text of the query
was read.
-/
theorem After.early (after : query.After catalog draft .collectVariables)
    (early : step ∈ Step.arrangeJoins.upTo) (runs : runSteps catalog step.upTo draft = .ok later)
    : query.After catalog later step :=
  (after.upTo_safely step (Step.upTo_early early).1 (after.meets early runs)).of_ok runs

/-- What holds where the joins of a query are arranged, whether or not its text was read. -/
theorem After.arranged (after : query.After catalog draft .collectVariables)
    (runs : runSteps catalog Step.arrangeJoins.upTo draft = .ok later)
    : query.Forwarding ∧ query.After catalog later .arrangeJoins := by
  have rest : Step.arrangeJoins.upTo
      = Step.findSources.upTo ++ [.moveRestrictions, .resolveTables, .arrangeJoins] := by decide
  obtain ⟨middle, finds, -⟩ := exists_of_runSteps_append (rest ▸ runs)
  have forwarding := after.forwarding finds
  have safe := after.upTo_safely .arrangeJoins (by decide) fun step => forwarding.meets
  exact ⟨forwarding, safe.of_ok runs⟩

end QueryModel

/-- What the steps up to one of them lead to, from a query that is read. -/
theorem QueryModel.After.of_runSteps {source : String} {query : Cypher.Query} {catalog : Catalog}
    {start later : Draft} {step : Step} (parsed : Cypher.Query.parse source = .ok query)
    (begins : Draft.ofQuery query = .ok start) (member : step ∈ Step.pipeline)
    (runs : runSteps catalog step.upTo start = .ok later)
    : ∃ model : QueryModel, model.Projecting ∧ model.After catalog later step := by
  obtain ⟨model, after, projecting⟩ := (ofQuery_safely query catalog).of_ok begins
  have projecting := projecting (Cypher.Query.projectItems_of_parse parsed)
  exact ⟨model, projecting,
    (after.upTo_safely step member fun step _ => projecting.meets step).of_ok runs⟩

/-- Lowering a query that is read is safe. -/
theorem lower_safely {source : String} {query : Cypher.Query}
    (parsed : Cypher.Query.parse source = .ok query) (catalog : Catalog)
    : Safely (fun lowered => lowered.tree.Settled lowered.vars) (lower catalog query) := by
  refine (QueryModel.ofQuery_safely query catalog).bind fun draft ⟨model, after, projecting⟩ => ?_
  have projecting := projecting (Cypher.Query.projectItems_of_parse parsed)
  have whole : Step.pipeline = Step.resolveNames.upTo := by decide
  rw [whole]
  refine (after.upTo_safely .resolveNames (by decide) fun step _ => projecting.meets step).bind ?_
  intro later settled
  rw [Draft.finish, Tree.Settled.fault?_eq_none settled]
  exact settled

/-- Lowering a query that is read breaks no invariant: it fails only for the query or for want of
support. The tree of the query has no fault but missing tables from the finding of its sources on,
and none at all from the arrangement of its joins on.
-/
theorem lower_breaks_no_invariant {source : String} {query : Cypher.Query}
    (parsed : Cypher.Query.parse source = .ok query) (catalog : Catalog)
    : (∀ error,
          lower catalog query = .error error
          → error.category = .userQuery ∨ error.category = .unsupportedFeature)
      ∧ ∀ start step later,
          Draft.ofQuery query = .ok start
          → step ∈ Step.pipeline
          → runSteps catalog step.upTo start = .ok later
          → (.findSources ∈ step.upTo → later.tree.fault? false = none)
            ∧ (.arrangeJoins ∈ step.upTo → later.tree.fault? true = none) := by
  refine ⟨fun error failed => ?_, fun start step later begins member runs => ?_⟩
  · have safe := lower_safely parsed catalog
    rw [failed] at safe
    change error.category ≠ .internalInvariant at safe
    cases category : error.category with
    | userQuery => exact .inl rfl
    | unsupportedFeature => exact .inr rfl
    | internalInvariant => exact absurd category safe
  · obtain ⟨model, projecting, after⟩ := QueryModel.After.of_runSteps parsed begins member runs
    exact ⟨after.fault?_false_eq_none member projecting.forwarding,
      after.fault?_true_eq_none member⟩

/-- A topology of persons who know each other. -/
def acquaintances : Topology where
  metadata := none
  nodes := [{ labels := .ofList ["Person"], table := "persons", keyColumn := "id", columns := ∅ }]
  relationships :=
    [{ type := "KNOWS", table := "knows", fromLabel := none, toLabel := none, fromColumn := "src",
       toColumn := "dst", keyColumn := none, columns := ∅ }]

/-- The query `MATCH (a)<-[r]-(b) OPTIONAL MATCH (b)-[s]-(c) RETURN a`. -/
def twoHops : Cypher.Query where
  clauses :=
    [.matching
      ⟨false,
        [⟨none, ⟨some "a", [], none⟩,
          [(⟨some "r", .left, [], none, none⟩, ⟨some "b", [], none⟩)]⟩],
        none⟩,
      .matching
        ⟨true,
          [⟨none, ⟨some "b", [], none⟩,
            [(⟨some "s", .both, [], none, none⟩, ⟨some "c", [], none⟩)]⟩],
          none⟩,
      .returnItems ⟨false, [⟨.var "a", none, "a"⟩], [], none, none⟩]

/-- The draft of a query after a step, if the step is reached. -/
def draftAfter? (catalog : Catalog) (step : Step) (query : Cypher.Query) : Option Draft := do
  let start ← (Draft.ofQuery query).toOption
  (runSteps catalog step.upTo start).toOption

theorem toOption_eq_some {ε α : Type} {result : Except ε α} {value : α}
    : result.toOption = some value ↔ result = .ok value := by
  cases result <;> simp [Except.toOption]

theorem draftAfter?_eq_some {catalog : Catalog} {step : Step} {query : Cypher.Query} {later : Draft}
    (reached : draftAfter? catalog step query = some later)
    : ∃ start, Draft.ofQuery query = .ok start ∧ runSteps catalog step.upTo start = .ok later := by
  obtain ⟨start, begins, runs⟩ := Option.bind_eq_some_iff.mp reached
  exact ⟨start, toOption_eq_some.mp begins, toOption_eq_some.mp runs⟩

theorem exists_of_draftAfter? {catalog : Catalog} {step : Step} {query : Cypher.Query}
    (reached : (draftAfter? catalog step query).isSome)
    : ∃ start later,
        Draft.ofQuery query = .ok start ∧ runSteps catalog step.upTo start = .ok later := by
  obtain ⟨later, reached⟩ := Option.isSome_iff_exists.mp reached
  obtain ⟨start, run⟩ := draftAfter?_eq_some reached
  exact ⟨start, later, run⟩

/-- Witness: a query that renames a node, joins both ends of two relationships and counts is lowered
without a fault. One that reads a variable it has left behind is refused as a mistake of the query.
-/
theorem renamedFriends_breaks_no_invariant
    : (∃ query start later,
        Cypher.Query.parse
            "MATCH (a:Person)-[:KNOWS]->(b) WITH b AS c, a.age AS x OPTIONAL MATCH (c)<-[:KNOWS]-(d) RETURN x, count(d)"
          = .ok query
        ∧ Draft.ofQuery query = .ok start
        ∧ runSteps acquaintances.catalog Step.resolveNames.upTo start = .ok later
        ∧ later.tree.fault? false = none
        ∧ later.tree.fault? true = none)
      ∧ ∃ query error,
          Cypher.Query.parse "MATCH (a:Person) WITH a AS b RETURN a" = .ok query
          ∧ lower acquaintances.catalog query = .error error
          ∧ (error.category = .userQuery ∨ error.category = .unsupportedFeature) := by
  constructor
  · have reached : ((Cypher.Query.parse
        "MATCH (a:Person)-[:KNOWS]->(b) WITH b AS c, a.age AS x OPTIONAL MATCH (c)<-[:KNOWS]-(d) RETURN x, count(d)").toOption.any
        fun query => (draftAfter? acquaintances.catalog .resolveNames query).isSome) = true := by
      rw [Cypher.Query.toOption_parse, String.toList_ofList]
      decide +kernel
    obtain ⟨query, parsed, reached⟩ := (Option.any_eq_true _ _).mp reached
    obtain ⟨start, later, begins, runs⟩ := exists_of_draftAfter? reached
    have parsed := toOption_eq_some.mp parsed
    obtain ⟨sourced, arranged⟩ := (lower_breaks_no_invariant parsed acquaintances.catalog).2 start
      .resolveNames later begins (by decide) runs
    exact ⟨query, start, later, parsed, begins, runs, sourced (by decide), arranged (by decide)⟩
  · have refused : ((Cypher.Query.parse "MATCH (a:Person) WITH a AS b RETURN a").toOption.any
        fun query => (lower acquaintances.catalog query).toOption.isNone) = true := by
      rw [Cypher.Query.toOption_parse, String.toList_ofList]
      decide +kernel
    obtain ⟨query, parsed, refused⟩ := (Option.any_eq_true _ _).mp refused
    have parsed := toOption_eq_some.mp parsed
    cases lowers : lower acquaintances.catalog query with
    | error error =>
        exact ⟨query, error, parsed, lowers,
          (lower_breaks_no_invariant parsed acquaintances.catalog).1 error lowers⟩
    | ok lowered =>
        rw [lowers] at refused
        cases refused

end CypherSql.Plan
