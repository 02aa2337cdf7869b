import CypherSql.Proofs.Inlining.Resolved
import CypherSql.Proofs.Inlining.Retained
import CypherSql.Proofs.ReferentialIntegrity

/-! Constants in place of the variables that project them. Every variable that projects a constant
when its mention is visited is replaced there. What is left are mentions of variables that come to
project a constant later in the same pass.
-/

namespace CypherSql.Plan

variable {draft : Draft} {vars later : VarTable} {id : VarId} {scope : Nat} {expr : Expr}

/-- All constants are still the same constants. -/
def VarTable.KeepsConstants (vars later : VarTable) : Prop :=
  ∀ id value scope, constant? vars id = some (value, scope) → constant? later id = some
    (value, scope)

theorem VarTable.KeepsConstants.threads : Threads VarTable.KeepsConstants where
  refl := fun _ _ _ _ found => found
  trans := fun _ _ _ first second id value scope found =>
    second id value scope (first id value scope found)

theorem VarTable.KeepsConstants.refresh (vars : VarTable) (id : VarId)
    : vars.KeepsConstants (vars.refresh id) :=
  fun _ _ _ found => (constant?_congr (get?_refresh ..)).trans found

/-- Constants of earlier scopes stay such. -/
theorem VarTable.KeepsConstants.earlierConstant (keeps : vars.KeepsConstants later)
    (earlier : vars.EarlierConstant scope id)
    : later.EarlierConstant scope id := by
  obtain ⟨value, declaredIn, found, before⟩ := earlier
  exact ⟨value, declaredIn, keeps id value declaredIn found, before⟩

/-- A constant stays as it is. -/
theorem replaceConstants_of_isConstant {site : Site} (constant : expr.isConstant = true)
    : replaceConstants vars site expr = expr := by
  unfold replaceConstants
  split
  · rfl
  · exact Expr.mapParts_of_isConstant constant fun _ => inlineConstant_of_isConstant

/-- What projects a constant is not rewritten. -/
theorem rewritesKeep_constants
    : RewritesKeep Modality.ofId (fun vars site expr => pure (replaceConstants vars site expr))
        VarTable.KeepsConstants := by
  intro vars site expr id var type found projects different other value scope constant
  rw [← constant]
  refine constant?_congr ?_
  rw [VarTable.get?_redefine_of_get? found, if_neg]
  rintro rfl
  obtain ⟨same, type', present, projects', -, isConstant⟩ := constant?_eq_some constant
  obtain rfl := Option.some.inj (found.symm.trans present)
  obtain ⟨rfl, -⟩ := Definition.projected.inj (projects.symm.trans projects')
  exact different (replaceConstants_of_isConstant isConstant)

/-- What becomes of the variables where constants take the place of variables. -/
theorem Draft.mapExprs_replaceConstants_visits (draft : Draft)
    : VarTable.Visits VarTable.KeepsConstants
        (fun vars site old new => replaceConstants vars site old = new) draft.vars draft.vars.ids
        draft.vars (draft.mapExprs replaceConstants).vars :=
  draft.mapExprsM_visits Modality.ofId VarTable.KeepsConstants.threads
    (rewritesKeep_constants.refreshed VarTable.KeepsConstants.threads
      VarTable.KeepsConstants.refresh)
    (fun _ _ _ => rfl) fun _ => trivial

/-- What is evaluated after the replacement has no parts that would have been replaced, in a table
that still has the constants of the first one.
-/
theorem Draft.Evaluates.inlined_replaceConstants
    (evaluates : (draft.mapExprs replaceConstants).Evaluates scope expr)
    : ∃ middle, draft.vars.KeepsConstants middle ∧ expr.Inlined middle scope := by
  cases evaluates with
  | @expression scope expr member inside =>
      rw [Draft.scopes_mapExprs] at member
      obtain ⟨old, -, rfl⟩ := List.mem_map.mp member
      rw [Scope.evaluated_mapExprs] at inside
      obtain ⟨source, -, rfl⟩ := List.mem_map.mp inside
      rw [Scope.index_mapExprs]
      exact ⟨draft.vars, VarTable.KeepsConstants.threads.refl _, source.inlined_mapParts⟩
  | @projection id var expr found projects =>
      obtain ⟨old, middle, -, kept, rewritten, here⟩ :=
        draft.mapExprs_replaceConstants_visits.of_get? found
      rw [here]
      refine ⟨middle, kept, ?_⟩
      cases kind : var.definition with
      | projected new type =>
          rw [kind] at projects rewritten
          obtain rfl := Option.some.inj projects
          cases definition : old.definition with
          | projected source type' =>
              rw [definition] at rewritten
              cases rewritten with
              | projected becomes => exact becomes ▸ source.inlined_mapParts
              | other unprojected => cases unprojected
          | _ =>
              rw [definition] at rewritten
              cases rewritten
      | _ => simp [kind, Definition.projection?] at projects

/-- Dropping constants evaluates nothing new but a number. -/
theorem Draft.Drops.evaluates {later : Draft} (drops : draft.Drops later)
    (evaluates : later.Evaluates scope expr)
    : draft.Evaluates scope expr ∨ expr = .literal (.integer 1) := by
  cases evaluates with
  | @expression scope expr member inside =>
      have listed := List.mem_map_of_mem (f := Scope.contents) member
      rw [drops.contents] at listed
      obtain ⟨old, present, same⟩ := List.mem_map.mp listed
      simp only [Scope.contents, Prod.mk.injEq] at same
      exact .inl (same.1 ▸ .expression present (same.2.1 ▸ inside))
  | @projection id var expr found projects =>
      cases constant : constant? draft.vars id with
      | none => exact .inl (.projection ((drops.vars.others id constant).symm.trans found) projects)
      | some value =>
          obtain ⟨value, declaredIn⟩ := value
          rcases drops.vars.constants id value declaredIn constant with gone | ⟨kept, present, same⟩
          · simp [gone] at found
          · obtain ⟨other, found', projects', rfl, -⟩ := constant?_eq_some_iff.mp present
            obtain rfl := Option.some.inj (found.symm.trans found')
            obtain rfl := Option.some.inj (projects.symm.trans projects')
            refine same.imp_left ?_
            rintro rfl
            obtain ⟨old, found, projects, here, -⟩ := constant?_eq_some_iff.mp constant
            exact here ▸ .projection found projects

/-- What is evaluated after the pass has no parts that would have been replaced, in a table that
still has the constants from before.
-/
theorem Draft.Evaluates.inlined (evaluates : (inlineConstants draft).Evaluates scope expr)
    : ∃ middle, draft.vars.KeepsConstants middle ∧ expr.Inlined middle scope := by
  rcases (dropConstants_drops _).evaluates evaluates with evaluated | rfl
  · exact evaluated.inlined_replaceConstants
  · exact ⟨draft.vars, VarTable.KeepsConstants.threads.refl _, Expr.inlined_of_isConstant rfl⟩

/-- Where nothing mentions a constant of an earlier scope after the pass, running it again changes
nothing.
-/
theorem Draft.Inlined.inlineConstants_eq_self {declared : List VarId}
    (inlined : (inlineConstants draft).Inlined) (coherent : draft.vars.Coherent declared)
    : inlineConstants (inlineConstants draft) = inlineConstants draft := by
  have same : (inlineConstants draft).mapExprs replaceConstants = inlineConstants draft := by
    refine Draft.mapExprs_eq_self (fun _ _ => rfl) fun scope expr evaluates => ?_
    obtain ⟨middle, -, left⟩ := evaluates.inlined
    exact Expr.mapParts_inlineConstant_eq_self_iff.mpr
      (Expr.inlined_iff.mpr ⟨inlined scope expr evaluates, (Expr.inlined_iff.mp left).2⟩)
  have replaced : (draft.mapExprs replaceConstants).vars.Coherent declared :=
    Draft.mapExprs_coherent inlineConstants_within
      (fun site stands => .inl (inlineConstants_names site stands)) coherent
  rw [inlineConstants_eq (inlineConstants draft), same, inlineConstants_eq,
    dropConstants_dropConstants replaced]

/-- A scope whose expressions all stay evaluates what it did, expression by expression. -/
theorem Scope.evaluated_kept {f : Site → Expr → Expr} {scope : Scope}
    (same : (scope.mapExprs f).evaluated = scope.evaluated)
    : ∀ expr ∈ scope.evaluated, f ⟨scope.index, false⟩ expr = expr := by
  rw [Scope.evaluated_mapExprs] at same
  exact List.map_inj_left.mp (same.trans (List.map_id' _).symm)

/-- Where constants take the place of variables and are dropped, and nothing changes, the variables
did not change when constants took their place.
-/
theorem Draft.get?_mapExprs_of_inlineConstants (same : (inlineConstants draft).vars = draft.vars)
    {var : Variable} (found : draft.vars.get? id = some var)
    : (draft.mapExprs replaceConstants).vars.get? id = some var := by
  have drops := (dropConstants_drops (draft.mapExprs replaceConstants)).vars
  rw [← inlineConstants_eq, same] at drops
  cases constant : constant? (draft.mapExprs replaceConstants).vars id with
  | none => rw [← drops.others id constant, found]
  | some value =>
      obtain ⟨value, declaredIn⟩ := value
      rcases drops.constants id value declaredIn constant with gone | ⟨kept, present, number⟩
      · simp [gone] at found
      · obtain ⟨other, type, found', projects, -, isConstant⟩ := constant?_eq_some present
        obtain rfl := Option.some.inj (found.symm.trans found')
        obtain ⟨middle, definition, -, rewritten, changed⟩ :=
          draft.mapExprs_replaceConstants_visits.get? found
        rw [projects] at rewritten
        cases rewritten with
        | projected becomes =>
            rw [replaceConstants_of_isConstant isConstant] at becomes
            rw [changed, ← becomes, ← projects]
        | other unprojected => cases unprojected

/-- Where another run of the pass changes nothing, nothing mentions a constant of an earlier scope.
-/
theorem Draft.inlined_of_inlineConstants_eq_self
    (sameTree : (inlineConstants draft).tree = draft.tree)
    (sameVars : (inlineConstants draft).vars = draft.vars)
    : draft.Inlined := by
  have contents := (dropConstants_drops (draft.mapExprs replaceConstants)).contents
  rw [← inlineConstants_eq, sameTree] at contents
  intro scope expr evaluates
  refine (Expr.inlined_iff.mp (Expr.mapParts_inlineConstant_eq_self_iff.mp ?_)).1
  cases evaluates with
  | @expression scope expr member inside =>
      rw [Draft.scopes_mapExprs, List.map_map, List.map_inj_left] at contents
      have evaluated := congrArg (·.2.1) (contents scope member)
      exact Scope.evaluated_kept evaluated.symm expr inside
  | @projection id var expr found projects =>
      have member := VarTable.mem_ids.mpr (Option.isSome_iff_exists.mpr ⟨var, found⟩)
      have kept : ∀ id ∈ draft.vars.ids,
          (draft.vars.mapProjections replaceConstants draft.vars.ids).get? id
            = draft.vars.get? id := by
        intro id member
        obtain ⟨var, found⟩ := Option.isSome_iff_exists.mp (VarTable.mem_ids.mp member)
        exact (Draft.get?_mapExprs_of_inlineConstants sameVars found).trans found.symm
      exact VarTable.projection_of_mapProjections draft.vars.vars.keys_nodup kept id member
        var expr found
        projects

/-- A constant after the pass that was one before is declared where it was. -/
theorem Draft.constant?_inlineConstants {value old : Expr} {declaredIn before : Nat}
    (found : constant? (inlineConstants draft).vars id = some (value, declaredIn))
    (known : constant? draft.vars id = some (old, before))
    : before = declaredIn := by
  obtain ⟨kept, present, -⟩ := (dropConstants_drops _).vars.of_constant? found
  have still := draft.mapExprs_replaceConstants_visits.kept id old before known
  exact (Prod.mk.inj (Option.some.inj (still.symm.trans present))).2

/-- Only a variable that becomes a constant in the pass is still mentioned after it. -/
theorem Draft.inlined_inlineConstants_iff (draft : Draft)
    : (inlineConstants draft).Inlined
      ↔ ∀ id,
          constant? draft.vars id = none
          → ∀ scope expr,
              (inlineConstants draft).Evaluates scope expr
              → (inlineConstants draft).vars.EarlierConstant scope id
              → .var id ∉ expr.parts := by
  constructor
  · exact fun inlined id _ scope expr evaluates earlier inside =>
      inlined scope expr evaluates ⟨id, inside, earlier⟩
  · rintro noLate scope expr evaluates ⟨id, inside, earlier⟩
    cases known : constant? draft.vars id with
    | none => exact noLate id known scope expr evaluates earlier inside
    | some constant =>
        obtain ⟨value, declaredIn, found, before⟩ := earlier
        obtain rfl := Draft.constant?_inlineConstants found known
        obtain ⟨middle, keeps, inlined⟩ := evaluates.inlined
        refine inlineConstant_var_eq_self_iff.mp (inlined _ inside) ?_
        exact keeps.earlierConstant ⟨_, _, known, before⟩

/-- Whether all constants are inlined in a query is decided in the pass that inlines them: nothing
at the end mentions a constant of an earlier scope exactly if nothing does right after the pass.
That is so exactly if running the pass again changes neither the tree nor the variables, and exactly
if nothing mentions, in a later scope, a variable that came to project a constant only while the
pass ran.
-/
theorem constants_inlined_iff {query : Cypher.Query} {catalog : Catalog} {start last : Draft}
    (begins : Draft.ofQuery query = .ok start)
    (runs : runSteps catalog Step.pipeline start = .ok last)
    : ∃ before,
        runSteps catalog Step.simplifyProperties.upTo start = .ok before
        ∧ let once := inlineConstants before
          let again := inlineConstants once
          (last.Inlined ↔ once.Inlined)
          ∧ (once.Inlined ↔ again.tree = once.tree ∧ again.vars = once.vars)
          ∧ (once.Inlined
            ↔ ∀ id,
                constant? before.vars id = none
                → ∀ scope expr,
                    once.Evaluates scope expr
                    → once.vars.EarlierConstant scope id
                    → .var id ∉ expr.parts) := by
  have split : Step.pipeline
      = Step.simplifyProperties.upTo ++ [.inlineConstants, .markProperties, .resolveNames] := by
    decide
  obtain ⟨before, first, rest⟩ := QueryModel.exists_of_runSteps_append (split ▸ runs)
  -- After the pass, properties are marked and names resolved, which mentions no constant anew.
  obtain rfl := Except.ok.inj rest
  obtain ⟨walk, collected, tree, models, vars⟩ := QueryModel.exists_of_ofQuery begins
  have coherent := coherent_of_runSteps collected begins (by decide) first
  have marks : runSteps catalog Step.markProperties.upTo start
      = .ok (markProperties (inlineConstants before)) := by
    have upTo : Step.markProperties.upTo
        = Step.simplifyProperties.upTo ++ [.inlineConstants, .markProperties] := by
      decide
    rw [upTo, runSteps, List.foldlM_append, ← runSteps, first]
    rfl
  have coherentMarked := coherent_of_runSteps collected begins (by decide) marks
  obtain ⟨inOrder, isCollected, -⟩ := (collect_safely query).of_ok collected
  obtain ⟨layeredVars, layeredModels⟩ := collect_layered collected
  have layered : QueryModel.Layered ⟨walk.vars, walk.models, isCollected⟩ :=
    ⟨layeredVars, layeredModels⟩
  have layeredMarked := layered.of_runSteps inOrder ⟨tree, models, vars⟩ (by decide) marks
  refine ⟨before, first, ?_, ?_, before.inlined_inlineConstants_iff⟩
  · exact (Draft.inlined_resolveNames coherentMarked layeredMarked.vars).trans
      Draft.inlined_markProperties
  · refine ⟨fun inlined => ?_, fun same =>
      Draft.inlined_of_inlineConstants_eq_self same.1 same.2⟩
    rw [inlined.inlineConstants_eq_self coherent]
    exact ⟨rfl, rfl⟩

/-- The query `MATCH (a) WITH a, 1 AS one RETURN a, one AS n`. -/
def passedConstant : Cypher.Query where
  clauses :=
    [.matching ⟨false, [⟨none, ⟨some "a", [], none⟩, []⟩], none⟩,
      .withItems
        ⟨false, [⟨.var "a", none, "a"⟩, ⟨.literal (.integer 1), some "one", "1"⟩], [],
          none, none⟩ none,
      .returnItems
        ⟨false, [⟨.var "a", none, "a"⟩, ⟨.var "one", some "n", "one"⟩], [], none, none⟩]

/-- Witness: a constant that is used under another name is inlined to the end. -/
theorem passedConstant_inlined
    : ∃ start last,
        Draft.ofQuery passedConstant = .ok start
        ∧ runSteps acquaintances.catalog Step.pipeline start = .ok last
        ∧ last.Inlined := by
  have reached : ((draftAfter? acquaintances.catalog .simplifyProperties passedConstant).any
      fun before => (inlineConstants before).Inlined) = true := by
    decide +kernel
  have finished : (draftAfter? acquaintances.catalog .resolveNames passedConstant).isSome := by
    decide +kernel
  obtain ⟨start, last, begins, runs⟩ := exists_of_draftAfter? finished
  have whole : Step.resolveNames.upTo = Step.pipeline := by decide
  rw [whole] at runs
  obtain ⟨before, first, toEnd, -⟩ := constants_inlined_iff begins runs
  obtain ⟨other, reached, inlined⟩ := (Option.any_eq_true _ _).mp reached
  obtain ⟨start', begins', first'⟩ := draftAfter?_eq_some reached
  obtain rfl := Except.ok.inj (begins.symm.trans begins')
  obtain rfl := Except.ok.inj (first.symm.trans first')
  exact ⟨start, last, begins, runs, toEnd.mpr (of_decide_eq_true inlined)⟩

/-- The query `MATCH (a:Person) WITH a, 1 AS x WITH a, x AS y RETURN y, count(a) AS n`. -/
def chainedConstants : Cypher.Query where
  clauses :=
    [.matching ⟨false, [⟨none, ⟨some "a", ["Person"], none⟩, []⟩], none⟩,
      .withItems
        ⟨false, [⟨.var "a", none, "a"⟩, ⟨.literal (.integer 1), some "x", "1"⟩], [],
          none, none⟩ none,
      .withItems ⟨false, [⟨.var "a", none, "a"⟩, ⟨.var "x", some "y", "x"⟩], [], none, none⟩ none,
      .returnItems
        ⟨false, [⟨.var "y", none, "y"⟩, ⟨.call "count" false [.var "a"], some "n", "count(a)"⟩],
          [], none, none⟩]

/-- A constant under two names is not inlined: the second name is visited before it stands for a
constant.
-/
theorem chainedConstants_not_inlined
    : ∃ start last,
        Draft.ofQuery chainedConstants = .ok start
        ∧ runSteps acquaintances.catalog Step.pipeline start = .ok last
        ∧ ¬ last.Inlined := by
  have reached : ((draftAfter? acquaintances.catalog .resolveNames chainedConstants).any
      fun last => ¬ last.Inlined) = true := by
    decide +kernel
  obtain ⟨last, reached, stays⟩ := (Option.any_eq_true _ _).mp reached
  obtain ⟨start, begins, runs⟩ := draftAfter?_eq_some reached
  exact ⟨start, last, begins, runs, of_decide_eq_true stays⟩

end CypherSql.Plan
