import CypherSql.Proofs.Collection.Declarations
import CypherSql.Proofs.SubqueryColumns

/-! Generated names never clash. The ids of the variables of a query and the names of its subqueries
are handed out one after the other, each of them new.
-/

namespace CypherSql.Plan

/-- The names of the subqueries of a tree, so far as they have one. -/
def Tree.names (tree : Tree) : List (Option String) :=
  tree.subqueries.map (·.name)

/-- Subqueries without names get those that are handed out for them, by induction over the
subqueries.
-/
theorem nameAll_names {naming : Naming} {subqueries : List Subquery}
    {result : List Subquery × Naming}
    (succeeded : nameAll naming subqueries = .ok result)
    : result.1.map (·.name)
      = (naming.answerAll (List.replicate subqueries.length .subquery)).1.map some := by
  induction subqueries generalizing naming result with
  | nil =>
      obtain rfl := Except.ok.inj succeeded
      rfl
  | cons subquery rest ih =>
      unfold nameAll at succeeded
      split at succeeded
      · cases succeeded
      · obtain ⟨⟨named, last⟩, others, same⟩ := bind_eq_ok.mp succeeded
        obtain rfl := Except.ok.inj same
        rw [List.map_cons, ih others]
        rfl

section Kept

variable {tree treeLater : Tree} {draft later : Draft} {catalog : Catalog}

theorem Tree.Maps.names {related : Scope → Scope → Prop} (maps : tree.Maps related treeLater)
    : treeLater.names = tree.names :=
  map_eq_of_forall₂ maps.subqueries fun _ _ same => same.name

/-- What changes of variables return has a property, if they succeed. -/
def Modality.ofRuns {σ ε : Type} : Modality (StateT σ (Except ε)) where
  Holds := fun post action => ∀ state result, action.run state = .ok result → post result.1
  pure := by
    rintro α post value holds state _ ⟨⟩
    exact holds
  bind := by
    intro α β post last first next holds each state result succeeded
    rw [StateT.run_bind] at succeeded
    obtain ⟨⟨value, middle⟩, done, succeeded⟩ := bind_eq_ok.mp succeeded
    exact each value (holds state _ done) middle result succeeded
  and := fun left right state result succeeded =>
    ⟨left state result succeeded, right state result succeeded⟩

/-- A change of the scopes leaves the names of subqueries. -/
theorem Draft.eachScope_names {f : Scope → VarTable → Except LoweringError (Scope × VarTable)}
    (succeeded : draft.eachScope f = .ok later)
    : later.tree.names = draft.tree.names := by
  obtain ⟨⟨tree, vars⟩, changed, same⟩ := bind_eq_ok.mp succeeded
  obtain rfl := Except.ok.inj same
  have maps : Modality.ofRuns.Holds (draft.tree.Maps fun _ _ => True)
      (draft.tree.mapScopesM fun scope =>
        (f scope : StateT VarTable (Except LoweringError) Scope)) :=
    Tree.mapScopesM_holds Modality.ofRuns fun _ _ _ _ _ => trivial
  exact (maps draft.vars _ changed).names

theorem findSources_names (succeeded : findSources draft = .ok later)
    : later.tree.names = draft.tree.names := by
  obtain ⟨supplied, -, succeeded⟩ := bind_eq_ok.mp succeeded
  obtain ⟨tree, changed, same⟩ := bind_eq_ok.mp succeeded
  obtain rfl := Except.ok.inj same
  have maps : Modality.ofOk.Holds (draft.tree.Maps fun _ _ => True)
      (draft.tree.mapScopesM (scopeSources draft.vars supplied)) :=
    Tree.mapScopesM_holds Modality.ofOk fun _ _ _ _ => trivial
  exact (maps tree changed).names

theorem findExports_names (succeeded : findExports draft = .ok later)
    : later.tree.names = draft.tree.names := by
  obtain ⟨subqueries, found, same⟩ := bind_eq_ok.mp succeeded
  obtain rfl := Except.ok.inj same
  refine map_eq_of_forall₂ (Modality.forall₂_of_mapM_eq_ok found) fun old new succeeded => ?_
  unfold subqueryExports at succeeded
  split at succeeded
  · cases succeeded
  · obtain ⟨ids, -, succeeded⟩ := bind_eq_ok.mp succeeded
    obtain ⟨exports, -, same⟩ := bind_eq_ok.mp succeeded
    obtain rfl := Except.ok.inj same
    rfl

/-- Subqueries drop variables, but not their names. -/
theorem Tree.names_unproject (tree : Tree) (source : Nat) (id : VarId)
    : (tree.unproject source id).names = tree.names := by
  simp only [Tree.names, Tree.unproject, List.map_map]
  refine List.ext_getElem? fun position => ?_
  simp only [List.getElem?_map, List.getElem?_modify]
  cases tree.subqueries[position]? with
  | none => rfl
  | some subquery =>
      by_cases here : source = position
      · simp [here, Subquery.unproject]
      · simp [here]

/-- The simplification of expressions leaves the names of subqueries. -/
theorem lasting_names (names : List (Option String))
    : Draft.Lasting fun draft => draft.tree.names = names where
  rewrite := fun _ _ same maps _ => maps.names.trans same
  drop := fun draft source id same _ _ => (draft.tree.names_unproject source id).trans same

/-- Each step after the one that names subqueries leaves the names as they are. -/
theorem runStep_names {step : Step} (late : step ∈ Step.pipeline.drop 3)
    (succeeded : runStep catalog step draft = .ok later)
    : later.tree.names = draft.tree.names := by
  have lasting := lasting_names draft.tree.names
  cases step with
  | findSources => exact findSources_names succeeded
  | moveRestrictions => exact Draft.eachScope_names succeeded
  | resolveTables => exact Draft.eachScope_names succeeded
  | arrangeJoins => exact Draft.eachScope_names succeeded
  | findExports => exact findExports_names succeeded
  | simplifyFunctions => exact lasting.simplifyFunctions rfl succeeded
  | simplifyProperties =>
      obtain rfl := Except.ok.inj succeeded
      exact lasting.mapExprs rfl _
  | inlineConstants =>
      obtain rfl := Except.ok.inj succeeded
      exact lasting.dropConstants (lasting.mapExprs rfl _)
  | markProperties =>
      obtain rfl := Except.ok.inj succeeded
      rfl
  | resolveNames =>
      obtain rfl := Except.ok.inj succeeded
      exact lasting.mapExprs rfl _
  | _ => exact absurd late (by decide)

/-- A run of such steps does so, by induction over the steps. -/
theorem runSteps_names {steps : List Step} (late : ∀ step ∈ steps, step ∈ Step.pipeline.drop 3)
    (runs : runSteps catalog steps draft = .ok later)
    : later.tree.names = draft.tree.names := by
  induction steps generalizing draft with
  | nil =>
      obtain rfl := Except.ok.inj runs
      rfl
  | cons step rest ih =>
      obtain ⟨middle, first, others⟩ := bind_eq_ok.mp runs
      have kept := runStep_names (late step (by simp)) first
      exact (ih (fun other member => late other (by simp [member])) others).trans kept

end Kept

/-- The steps up to one from the naming of subqueries on are those up to the naming, and later ones.
-/
theorem Step.upTo_named {step : Step} (member : step ∈ Step.pipeline)
    (named : .nameSubqueries ∈ step.upTo)
    : step.upTo = Step.nameSubqueries.upTo ++ step.upTo.drop 3
      ∧ ∀ other ∈ step.upTo.drop 3, other ∈ Step.pipeline.drop 3 := by
  revert step
  decide

/-- Subqueries are named with what the collection of the variables has left. -/
theorem naming_of_runSteps {catalog : Catalog} {start built : Draft}
    (runs : runSteps catalog [.inferTypes, .buildScopes] start = .ok built)
    : built.naming = start.naming := by
  obtain ⟨typed, types, runs⟩ := bind_eq_ok.mp runs
  replace runs : buildScopes typed = .ok built := by simpa [runSteps, runStep] using runs
  have ofTypes : typed.naming = start.naming := by
    obtain ⟨vars, -, types⟩ := bind_eq_ok.mp types
    split at types
    · cases types
    · obtain rfl := Except.ok.inj types
      rfl
  rw [← ofTypes]
  unfold buildScopes at runs
  split at runs
  · cases runs
  · obtain ⟨⟨subqueries, root⟩, -, runs⟩ := bind_eq_ok.mp runs
    cases root with
    | none => cases runs
    | some root =>
        obtain rfl := Except.ok.inj runs
        rfl

/-- Once they are named, the subqueries of a query have names that differ from each other and from
the ids of all variables that were declared.
-/
theorem subqueryNames_new {query : Cypher.Query} {catalog : Catalog} {walk : Walk}
    {start later : Draft} {step : Step} (accounts : walk.Accounts)
    (collected : collect query = .ok walk) (begins : Draft.ofQuery query = .ok start)
    (member : step ∈ Step.pipeline) (named : .nameSubqueries ∈ step.upTo)
    (runs : runSteps catalog step.upTo start = .ok later)
    : ∃ names : List String,
        later.tree.names = names.map some ∧ (walk.declared ++ names).Nodup := by
  obtain ⟨split, late⟩ := Step.upTo_named member named
  obtain ⟨middle, first, others⟩ := QueryModel.exists_of_runSteps_append (split ▸ runs)
  have upTo : Step.nameSubqueries.upTo = [.inferTypes, .buildScopes] ++ [.nameSubqueries] := by
    decide
  obtain ⟨built, builds, naming⟩ := QueryModel.exists_of_runSteps_append (upTo ▸ first)
  have startNaming : start.naming = walk.naming := by
    simp only [Draft.ofQuery, collected] at begins
    obtain rfl := Except.ok.inj begins
    rfl
  have tracks : built.naming.Tracks walk.declared := by
    rw [naming_of_runSteps builds, startNaming]
    exact accounts.tracks
  have naming : nameSubqueries built = .ok middle := by simpa [runSteps, runStep] using naming
  obtain ⟨⟨subqueries, last⟩, all, same⟩ := bind_eq_ok.mp naming
  obtain rfl := Except.ok.inj same
  refine ⟨_, (runSteps_names late others).trans (nameAll_names all), ?_⟩
  exact (tracks.answerAll accounts.distinct _).2

/-- Generated names never clash. Whatever is asked for, and in whatever order, the names that are
handed out differ from each other, and each is the one that has to be handed out next: the base of a
variable if it is new, or the base with the least number that makes it new. So wherever the
collection of the variables of a query proceeds, the next variable that is declared replaces no
other, whether or not it comes to the end of the query. Once it does, every variable is declared
exactly once, no step declares another, and the names of all subqueries differ from each other and
from the ids of all variables.
-/
theorem names_neverClash (query : Cypher.Query) (catalog : Catalog)
    : (∀ requests : List NameRequest,
          (Naming.initial.answerAll requests).1.length = requests.length
          ∧ (Naming.initial.answerAll requests).1.Nodup
          ∧ ∀ (index : Nat) (request : NameRequest),
              requests[index]? = some request
              → ∃ name,
                  (Naming.initial.answerAll requests).1[index]? = some name
                  ∧ request.Gets ((Naming.initial.answerAll requests).1.take index) name)
      ∧ (∀ names walk,
          Walk.start.Proceeds names walk
          → ∀ base make, walk.vars.get? (walk.declare base make).1 = none)
      ∧ ∀ walk,
          collect query = .ok walk
          → Walk.start.Proceeds (fun name => name ∈ unnamedBases ∨ name ∈ query.names) walk
            ∧ walk.declared.Nodup
            ∧ (∀ id, id ∈ walk.declared ↔ (walk.vars.get? id).isSome)
            ∧ ∀ start step later,
                Draft.ofQuery query = .ok start
                → step ∈ Step.pipeline
                → runSteps catalog step.upTo start = .ok later
                → (∀ id, (later.vars.get? id).isSome → id ∈ walk.declared)
                  ∧ (.nameSubqueries ∈ step.upTo
                    → ∃ names : List String,
                        later.tree.names = names.map some ∧ (walk.declared ++ names).Nodup) := by
  refine ⟨fun requests => ?_, ?_, ?_⟩
  · obtain ⟨-, distinct⟩ := Naming.tracks_initial.answerAll List.nodup_nil requests
    exact ⟨Naming.length_answerAll _ _, distinct, fun _ _ found => Naming.tracks_initial.gets found⟩
  · intro names walk proceeds base make
    exact (proceeds.accounts Walk.accounts_start).get?_eq_none base make
  · intro walk collected
    have proceeds
        : Walk.start.Proceeds (fun name => name ∈ unnamedBases ∨ name ∈ query.names) walk :=
      collect_proceeds (fun _ => .inl) (fun _ => .inr) collected
    -- Every step of the collection asks for its names, so that the declared ones are accounted for.
    have accounts := proceeds.accounts Walk.accounts_start
    refine ⟨proceeds, accounts.distinct, accounts.declared, ?_⟩
    intro start step later begins member runs
    have coherent := coherent_of_runSteps collected begins member runs
    refine ⟨fun id present => ?_, fun named => ?_⟩
    · obtain ⟨order, kept, ordered⟩ := coherent.inOrder
      exact kept.subset ((ordered.declared id).mpr present)
    · exact subqueryNames_new accounts collected begins member named runs

/-- The query `MATCH (a)-[r]->(b) WITH b AS with_0, a AS a_1 WITH with_0 AS a RETURN a`. -/
def numberedNames : Cypher.Query where
  clauses :=
    [.matching
      ⟨false,
        [⟨none, ⟨some "a", [], none⟩,
          [(⟨some "r", .right, [], none, none⟩, ⟨some "b", [], none⟩)]⟩],
        none⟩,
      .withItems
        ⟨false, [⟨.var "b", some "with_0", "b"⟩, ⟨.var "a", some "a_1", "a"⟩], [], none, none⟩ none,
      .withItems ⟨false, [⟨.var "with_0", some "a", "with_0"⟩], [], none, none⟩ none,
      .returnItems ⟨false, [⟨.var "a", none, "a"⟩], [], none, none⟩]

/-- Witness: names that look like generated ones are passed over. -/
theorem numberedNames_neverClash
    : (∃ name,
        (Naming.initial.answerAll [.fresh "a_1", .fresh "a", .fresh "a"]).1[2]? = some name
        ∧ (NameRequest.fresh "a").Gets
            ((Naming.initial.answerAll [.fresh "a_1", .fresh "a", .fresh "a"]).1.take 2) name)
      ∧ Walk.start.vars.get? (Walk.start.declare "a" fun _ => ("a", .temporary "a")).1 = none
      ∧ ∃ walk start later names,
          collect numberedNames = .ok walk
          ∧ walk.declared = ["a", "b", "r", "with_0", "a_1", "a_2", "col"]
          ∧ Draft.ofQuery numberedNames = .ok start
          ∧ runSteps acquaintances.catalog Step.resolveNames.upTo start = .ok later
          ∧ (∀ id, (later.vars.get? id).isSome → id ∈ walk.declared)
          ∧ later.tree.names = List.map some names
          ∧ (walk.declared ++ names).Nodup := by
  have reached : (draftAfter? acquaintances.catalog .resolveNames numberedNames).isSome := by
    decide +kernel
  have declares : (collect numberedNames).toOption.map (·.declared)
      = some ["a", "b", "r", "with_0", "a_1", "a_2", "col"] := by
    decide +kernel
  obtain ⟨start, later, begins, runs⟩ := exists_of_draftAfter? reached
  obtain ⟨walk, collected, declared⟩ := Option.map_eq_some_iff.mp declares
  have collected := toOption_eq_some.mp collected
  obtain ⟨handedOut, declaring, whole⟩ := names_neverClash numberedNames acquaintances.catalog
  obtain ⟨-, -, -, each⟩ := whole walk collected
  obtain ⟨ids, named⟩ := each start .resolveNames later begins (by decide) runs
  obtain ⟨names, same, distinct⟩ := named (by decide)
  exact ⟨(handedOut _).2.2 2 (.fresh "a") rfl, declaring (fun _ => True) Walk.start .refl _ _,
    walk, start, later, names, collected, declared, begins, runs, ids, same, distinct⟩

end CypherSql.Plan
