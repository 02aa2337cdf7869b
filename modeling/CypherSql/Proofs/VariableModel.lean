import CypherSql.Proofs.Passes.Definitions
import CypherSql.Proofs.Pipeline

/-! The variable model of a query is well formed once it is collected, and stays so after every step
of lowering.
-/

namespace CypherSql.Plan

variable {catalog : Catalog} {draft later : Draft} {declared : List VarId}

/-- A table that refines the model of a query keeps the order of its declarations. -/
theorem QueryModel.Refined.coherent {query : QueryModel} {typed : Bool} {vars : VarTable}
    (refined : query.Refined catalog typed vars) (inOrder : query.vars.Ordered declared)
    : vars.Coherent declared := by
  obtain ⟨_, ordered⟩ := refined.ordered
  have same := inOrder.of_growsTo refined.grows refined.same ordered.named ordered.recorded
  exact ⟨⟨declared, .refl _, same⟩, refined.linked⟩

/-- The variables are coherent after each step up to the arrangement of the joins. -/
theorem QueryModel.After.coherent {query : QueryModel} {step : Step}
    (after : query.After catalog draft step)
    (early : step ∈ .collectVariables :: Step.arrangeJoins.upTo)
    (inOrder : query.vars.Ordered declared)
    : draft.vars.Coherent declared := by
  cases step with
  | collectVariables =>
      obtain ⟨-, -, same⟩ := after
      exact same ▸ ⟨⟨declared, .refl _, inOrder⟩, query.collected.linked⟩
  | inferTypes => exact after.2.2.1.coherent inOrder
  | buildScopes => exact after.1.coherent inOrder
  | nameSubqueries => exact after.1.coherent inOrder
  | findSources => exact after.1.coherent inOrder
  | moveRestrictions => exact after.1.coherent inOrder
  | resolveTables => exact after.1.coherent inOrder
  | arrangeJoins => exact after.1.coherent inOrder
  | _ => exact absurd early (by decide)

/-- Each step after the arrangement of the joins keeps the variables coherent. -/
theorem runStep_coherent {step : Step} (late : step ∉ .collectVariables :: Step.arrangeJoins.upTo)
    (coherent : draft.vars.Coherent declared) (succeeded : runStep catalog step draft = .ok later)
    : later.vars.Coherent declared := by
  cases step with
  | findExports => exact Draft.findExports_vars succeeded ▸ coherent
  | simplifyFunctions => exact Draft.simplifyFunctions_coherent coherent succeeded
  | simplifyProperties =>
      obtain rfl := Except.ok.inj succeeded
      exact Draft.simplifyProperties_coherent coherent
  | inlineConstants =>
      obtain rfl := Except.ok.inj succeeded
      exact Draft.inlineConstants_coherent coherent
  | markProperties =>
      obtain rfl := Except.ok.inj succeeded
      exact Draft.markProperties_coherent coherent
  | resolveNames =>
      obtain rfl := Except.ok.inj succeeded
      exact Draft.resolveNames_coherent coherent
  | mergeVariants =>
      obtain rfl := Except.ok.inj succeeded
      exact coherent
  | _ => exact absurd (by decide) late

/-- A run of such steps keeps the variables coherent, by induction over the steps. -/
theorem runSteps_coherent {steps : List Step}
    (late : ∀ step ∈ steps, step ∉ .collectVariables :: Step.arrangeJoins.upTo)
    (coherent : draft.vars.Coherent declared) (runs : runSteps catalog steps draft = .ok later)
    : later.vars.Coherent declared := by
  induction steps generalizing draft with
  | nil =>
      obtain rfl := Except.ok.inj runs
      exact coherent
  | cons step rest ih =>
      have split : step :: rest = [step] ++ rest := rfl
      obtain ⟨middle, first, others⟩ := QueryModel.exists_of_runSteps_append (split ▸ runs)
      have first : runStep catalog step draft = .ok middle := by simpa [runSteps] using first
      have kept := runStep_coherent (late step (by simp)) coherent first
      exact ih (fun other member => late other (by simp [member])) kept others

/-- The steps up to a late one are those up to the arrangement of the joins and then late ones. -/
theorem Step.upTo_late {step : Step} (member : step ∈ Step.pipeline)
    (late : step ∉ Step.arrangeJoins.upTo)
    : step.upTo = Step.arrangeJoins.upTo ++ step.upTo.drop 7
      ∧ ∀ other ∈ step.upTo.drop 7, other ∉ .collectVariables :: Step.arrangeJoins.upTo := by
  revert step
  decide

/-- The variables stay coherent with the order of their declaration. -/
theorem coherent_of_runSteps {query : Cypher.Query} {walk : Walk} {step : Step}
    (collected : collect query = .ok walk) (begins : Draft.ofQuery query = .ok draft)
    (member : step ∈ Step.pipeline) (runs : runSteps catalog step.upTo draft = .ok later)
    : later.vars.Coherent walk.declared := by
  obtain ⟨inOrder, isCollected, -⟩ := (collect_safely query).of_ok collected
  have start : draft.tree = .empty ∧ draft.models = walk.models ∧ draft.vars = walk.vars := by
    simp only [Draft.ofQuery, collected] at begins
    obtain rfl := Except.ok.inj begins
    exact ⟨rfl, rfl, rfl⟩
  have after
      : QueryModel.After ⟨walk.vars, walk.models, isCollected⟩ catalog draft .collectVariables :=
    start
  by_cases early : step ∈ Step.arrangeJoins.upTo
  · exact (after.early early runs).coherent (List.mem_cons_of_mem _ early) inOrder
  · obtain ⟨split, late⟩ := Step.upTo_late member early
    obtain ⟨middle, first, others⟩ := QueryModel.exists_of_runSteps_append (split ▸ runs)
    have arranged := (after.arranged first).2.coherent (by decide) inOrder
    exact runSteps_coherent late arranged others

/-- The variables of a query are declared once each, and their table is well formed with respect to
the order of their declaration: when they are collected, and after every step of lowering. So no
definition mentions a later variable, no names lead in a circle, and the links of the patterns hold.
-/
theorem variables_wellFormed {query : Cypher.Query} {walk : Walk}
    (collected : collect query = .ok walk)
    (catalog : Catalog)
    : walk.declared.Nodup
      ∧ (∀ id, id ∈ walk.declared ↔ (walk.vars.get? id).isSome)
      ∧ walk.vars.WellFormed walk.declared
      ∧ ∀ start step later,
          Draft.ofQuery query = .ok start
          → step ∈ Step.pipeline
          → runSteps catalog step.upTo start = .ok later
          → later.vars.WellFormed walk.declared := by
  obtain ⟨inOrder, isCollected, -⟩ := (collect_safely query).of_ok collected
  refine ⟨inOrder.distinct, inOrder.declared, inOrder.wellFormed (.refl _) isCollected.linked, ?_⟩
  intro start step later begins member runs
  exact (coherent_of_runSteps collected begins member runs).wellFormed

/-- The query `MATCH p = (a)-[r]->(b) WITH a AS b, b AS a, p MATCH (a)-[s]->(b) RETURN count(p)`. -/
def swappedNames : Cypher.Query where
  clauses :=
    [.matching
      ⟨false,
        [⟨some "p", ⟨some "a", [], none⟩,
          [(⟨some "r", .right, [], none, none⟩, ⟨some "b", [], none⟩)]⟩],
        none⟩,
      .withItems
        ⟨false, [⟨.var "a", some "b", "a"⟩, ⟨.var "b", some "a", "b"⟩, ⟨.var "p", none, "p"⟩], [],
          none, none⟩
        none,
      .matching
        ⟨false,
          [⟨none, ⟨some "a", [], none⟩,
            [(⟨some "s", .right, [], none, none⟩, ⟨some "b", [], none⟩)]⟩],
          none⟩,
      .returnItems ⟨false, [⟨.call "count" false [.var "p"], none, "count(p)"⟩], [], none, none⟩]

/-- Witness: two names that change places are other names of their nodes, and stay so to the end. -/
theorem swappedNames_wellFormed
    : ∃ walk start later,
        collect swappedNames = .ok walk
        ∧ Draft.ofQuery swappedNames = .ok start
        ∧ runSteps acquaintances.catalog Step.resolveNames.upTo start = .ok later
        ∧ walk.declared.Nodup
        ∧ walk.vars.WellFormed walk.declared
        ∧ later.vars.WellFormed walk.declared := by
  have reached : (draftAfter? acquaintances.catalog .resolveNames swappedNames).isSome := by
    decide +kernel
  obtain ⟨start, later, begins, runs⟩ := exists_of_draftAfter? reached
  cases collected : collect swappedNames with
  | error error =>
      rw [Draft.ofQuery, collected] at begins
      cases begins
  | ok walk =>
      obtain ⟨distinct, -, first, rest⟩ := variables_wellFormed collected acquaintances.catalog
      exact ⟨walk, start, later, rfl, begins, runs, distinct, first,
        rest start .resolveNames later begins (by decide) runs⟩

end CypherSql.Plan
