import CypherSql.Proofs.Sharing.Clauses
import CypherSql.Proofs.Sorting.Keys
import Mathlib.Data.List.Sort

/-! Rewriting expressions that agree, by functions that agree on them. What variants project and
sort by goes on to be the same.
-/

namespace CypherSql.Plan

namespace VarTable

/-- The tables of two variants. -/
structure Agree (vars other : VarTable) : Prop where
  plain : vars.Plain
  plainOther : other.Plain
  shares : vars.Shares other

variable {vars other : VarTable} {id : VarId} {ids : List VarId} {var : Variable}
  {expr changed : Expr}
  {type : Option VarType}

/-- Variables with written ids come in the same order. -/
theorem Shares.ids_eq (shares : vars.Shares other)
    : vars.ids.filter (Written ·) = other.ids.filter (Written ·) := by
  have ascending (table : VarTable) : table.ids.Pairwise (· < ·) :=
    List.pairwise_map.mpr table.vars.ordered
  refine ((ascending vars).filter _).eq_of_mem_iff ((ascending other).filter _) fun id => ?_
  simp only [List.mem_filter, VarTable.mem_ids, decide_eq_true_eq]
  refine and_congr_left fun written => ?_
  have same := congrArg Option.isSome (shares id written)
  rw [Option.isSome_map, Option.isSome_map] at same
  rw [same]

/-- A variable may project something else that mentions written ids only. -/
theorem Plain.redefine (plain : vars.Plain) (found : vars.get? id = some var)
    (projects : var.definition = .projected expr type) (isWithin : changed.Within Written)
    : ((vars.redefine id (.projected changed type)).refresh id).Plain := by
  refine ⟨?_, ?_, ?_⟩
  · intro other new present projecting
    rw [get?_refresh, get?_redefine_of_get? found] at present
    split at present
    · rename_i same
      rw [same]
      exact plain.written found (by simp [projects, Definition.projection?])
    · exact plain.written present projecting
  · intro other new source present projected
    rw [get?_refresh, get?_redefine_of_get? found] at present
    split at present
    · obtain rfl := Option.some.inj present
      exact Option.some.inj projected ▸ isWithin
    · exact plain.within present projected
  · intro other new hops elements first present written isPath isFirst
    rw [get?_refresh, get?_redefine_of_get? found] at present
    split at present
    · obtain rfl := Option.some.inj present
      cases isPath
    · exact plain.starts present written isPath isFirst

/-- What a variable of one variant projects, it projects in the other one. -/
theorem Agree.projected (agree : vars.Agree other) (found : vars.get? id = some var)
    (projects : var.definition = .projected expr type)
    : ∃ same typeOther,
        other.get? id = some same
        ∧ same.scope = var.scope
        ∧ same.definition = .projected expr typeOther := by
  have written := agree.plain.written found (by simp [projects, Definition.projection?])
  obtain ⟨same, present, shape⟩ := agree.shares.get? written found
  obtain ⟨scope, shape⟩ := Prod.mk.inj shape
  rw [projects] at shape
  cases kind : same.definition with
  | projected expr' typeOther =>
      rw [kind] at shape
      obtain rfl := Shape.projected.inj shape
      exact ⟨same, typeOther, present, scope, kind⟩
  | _ =>
      rw [kind] at shape
      cases shape

theorem Agree.symm (agree : vars.Agree other) : other.Agree vars :=
  ⟨agree.plainOther, agree.plain, agree.shares.symm⟩

/-- The tables agree where a variable projects something else in both. -/
theorem Agree.redefine {same : Variable} {typeOther : Option VarType} (agree : vars.Agree other)
    (found : vars.get? id = some var) (projects : var.definition = .projected expr type)
    (foundOther : other.get? id = some same)
    (projectsOther : same.definition = .projected expr typeOther)
    (scope : same.scope = var.scope) (isWithin : changed.Within Written)
    : ((vars.redefine id (.projected changed type)).refresh id).Agree
        ((other.redefine id (.projected changed typeOther)).refresh id) := by
  refine ⟨agree.plain.redefine found projects isWithin,
    agree.plainOther.redefine foundOther projectsOther isWithin, fun name written => ?_⟩
  rw [get?_refresh, get?_refresh, get?_redefine_of_get? found, get?_redefine_of_get? foundOther]
  split
  · simp [Variable.shape, Definition.shape, scope]
  · exact agree.shares name written

end VarTable

section Projections

variable {m : Type → Type} [Monad m] {f : VarTable → Site → Expr → m Expr}
  {vars : VarTable} {ids : List VarId}

/-- Where only some variables project anything, the others are passed over. -/
theorem mapProjectionsM_filter {p : VarId → Bool}
    (only : ∀ id var, vars.get? id = some var → var.definition.projection? ≠ none → p id)
    : mapProjectionsM f ids vars = mapProjectionsM f (ids.filter p) vars := by
  induction ids generalizing vars with
  | nil => rfl
  | cons id rest ih =>
      by_cases projecting : ∃ var expr type,
        vars.get? id = some var ∧ var.definition = .projected expr type
      · obtain ⟨var, expr, type, found, projects⟩ := projecting
        have visited := only id var found (by simp [projects, Definition.projection?])
        rw [List.filter_cons_of_pos visited, mapProjectionsM_cons_projected found projects,
          mapProjectionsM_cons_projected found projects]
        refine bind_congr fun changed => ?_
        split
        · exact ih only
        · refine ih fun other new present projecting => ?_
          rw [VarTable.get?_refresh, VarTable.get?_redefine_of_get? found] at present
          split at present
          · rename_i same
            exact same ▸ visited
          · exact only other new present projecting
      · have unprojected := VarTable.unprojected_of_not_exists projecting
        rw [mapProjectionsM_cons_other unprojected, ih only, List.filter_cons]
        split
        · rw [mapProjectionsM_cons_other unprojected]
        · rfl

/-- Rewriting that does not fail leads to the table with what variables project replaced. -/
theorem mapProjectionsM_pure (g : VarTable → Site → Expr → Expr)
    : mapProjectionsM
      (fun vars site expr => (pure (g vars site expr) : Except LoweringError Expr)) ids vars
      = .ok (vars.mapProjections g ids) := by
  induction ids generalizing vars with
  | nil => rfl
  | cons id rest ih =>
      by_cases projecting : ∃ var expr type,
        vars.get? id = some var ∧ var.definition = .projected expr type
      · obtain ⟨var, expr, type, found, projects⟩ := projecting
        rw [mapProjectionsM_cons_projected found projects,
          VarTable.mapProjections_cons_projected found projects, pure_bind]
        split
        · exact ih
        · exact ih
      · have unprojected := VarTable.unprojected_of_not_exists projecting
        rw [mapProjectionsM_cons_other unprojected, VarTable.mapProjections_cons_other unprojected]
        exact ih

end Projections

/-- The rewriting treats the expressions of variants alike, as far as something holds of their
variables.
-/
def RewritesAlike (holds : VarTable → Prop) (g : VarTable → Site → Expr → Expr) : Prop :=
  ∀ vars other,
    vars.Agree other
    → holds vars
    → holds other
    → ∀ site expr,
        expr.Within Written
        → g vars site expr = g other site expr ∧ (g vars site expr).Within Written

section Rewriting

variable {f : VarTable → Site → Expr → Except LoweringError Expr}
  {g : VarTable → Site → Expr → Expr}
  {holds : VarTable → Prop} {vars other later laterOther : VarTable}
  (becomes : ∀ vars site expr new, f vars site expr = .ok new → g vars site expr = new)
  (keeps : RefreshesKeep Modality.ofOk f fun vars later => holds vars → holds later)
  (alike : RewritesAlike holds g)

include becomes keeps alike

/-- The tables of variants agree after the same variables are rewritten, by induction over them. -/
theorem VarTable.Agree.mapListedM {ids : List VarId} (agree : vars.Agree other) (first : holds vars)
    (second : holds other) (runs : mapProjectionsM f ids vars = .ok later)
    (runsOther : mapProjectionsM f ids other = .ok laterOther)
    : later.Agree laterOther := by
  induction ids generalizing vars other with
  | nil => exact Except.ok.inj runs ▸ Except.ok.inj runsOther ▸ agree
  | cons id rest ih =>
      by_cases projecting : ∃ var expr type,
        vars.get? id = some var ∧ var.definition = .projected expr type
      · obtain ⟨var, expr, type, found, projects⟩ := projecting
        obtain ⟨same, typeOther, foundOther, scope, projectsOther⟩ := agree.projected found projects
        rw [mapProjectionsM_cons_projected found projects] at runs
        rw [mapProjectionsM_cons_projected foundOther projectsOther, scope] at runsOther
        obtain ⟨changed, becomesNew, runs⟩ := bind_eq_ok.mp runs
        obtain ⟨changedOther, becomesOther, runsOther⟩ := bind_eq_ok.mp runsOther
        have isWithin := agree.plain.within found (by rw [projects]; rfl)
        obtain ⟨sameNew, within⟩ :=
          alike vars other agree first second ⟨var.scope, false⟩ expr isWithin
        rw [becomes _ _ _ _ becomesNew] at sameNew within
        rw [becomes _ _ _ _ becomesOther] at sameNew
        subst sameNew
        split at runs
        · rename_i unchanged
          rw [if_pos unchanged] at runsOther
          exact ih agree first second runs runsOther
        · rename_i different
          rw [if_neg different] at runsOther
          refine ih (agree.redefine found projects foundOther projectsOther scope within) ?_ ?_
            runs runsOther
          · exact keeps vars _ expr changed becomesNew id var type found projects different first
          · exact keeps other _ expr changed becomesOther id same typeOther foundOther projectsOther
              different second
      · have unprojected := VarTable.unprojected_of_not_exists projecting
        have unprojectedOther
            : ∀ var, other.get? id = some var → var.definition.projection? = none := by
          refine VarTable.unprojected_of_not_exists ?_
          rintro ⟨var, expr, type, found, projects⟩
          obtain ⟨same, typeOther, foundSame, -, projectsSame⟩ :=
            agree.symm.projected found projects
          exact projecting ⟨same, expr, typeOther, foundSame, projectsSame⟩
        rw [mapProjectionsM_cons_other unprojected] at runs
        rw [mapProjectionsM_cons_other unprojectedOther] at runsOther
        exact ih agree first second runs runsOther

/-- The tables of variants agree after their variables are rewritten. -/
theorem VarTable.Agree.mapProjectionsM (agree : vars.Agree other) (first : holds vars)
    (second : holds other) (runs : mapProjectionsM f vars.ids vars = .ok later)
    (runsOther : Plan.mapProjectionsM f other.ids other = .ok laterOther)
    : later.Agree laterOther := by
  have written {vars : VarTable} (plain : vars.Plain) (id : VarId) (var : Variable)
      (found : vars.get? id = some var) (projects : var.definition.projection? ≠ none)
      : decide (Written id) = true :=
    decide_eq_true (plain.written found projects)
  rw [mapProjectionsM_filter (written agree.plain)] at runs
  rw [mapProjectionsM_filter (written agree.plainOther), ← agree.shares.ids_eq]
    at runsOther
  exact agree.mapListedM becomes keeps alike first second runs runsOther

end Rewriting

/-- The scopes that variants end with: they return and sort by the same, which mentions written ids
only.
-/
structure Scope.Agree (scope other : Scope) : Prop where
  returns : scope.kind = .returnClause
  returnsOther : other.kind = .returnClause
  index : scope.index = other.index
  items : scope.items = other.items
  orderBy : scope.orderBy = other.orderBy
  plainItems : ∀ item ∈ scope.items, item.Plain
  plainKeys : ∀ key ∈ scope.orderBy, key.expr.Within Written

theorem Item.Plain.mapExpr {f : Expr → Expr} {item : Item} (plain : item.Plain)
    (within : ∀ expr, expr.Within Written → (f expr).Within Written)
    : (item.mapExpr f).Plain := by
  cases item with
  | named id => exact plain
  | unnamed expr column => exact ⟨within expr plain.1, plain.2⟩

/-- They return and sort by the same after rewriting that treats them alike. -/
theorem Scope.Agree.rewritten {scope other later laterOther : Scope} {f g : Site → Expr → Expr}
    (agree : scope.Agree other)
    (alike : ∀ site expr, expr.Within Written
      → f site expr = g site expr ∧ (f site expr).Within Written)
    (rewritten : scope.Rewritten f later) (rewrittenOther : other.Rewritten g laterOther)
    : later.Agree laterOther where
  returns := rewritten.kind.trans agree.returns
  returnsOther := rewrittenOther.kind.trans agree.returnsOther
  index := by rw [rewritten.index, rewrittenOther.index, agree.index]
  items := by
    rw [rewritten.items, rewrittenOther.items, ← agree.items, ← agree.index, agree.returns,
      agree.returnsOther]
    refine List.map_congr_left fun item member => ?_
    cases item with
    | named id => rfl
    | unnamed expr column =>
        exact congrArg (Item.unnamed · column) (alike _ expr (agree.plainItems _ member).1).1
  orderBy := by
    rw [rewritten.orderBy, rewrittenOther.orderBy, ← agree.orderBy, ← agree.index]
    refine List.map_congr_left fun key member => ?_
    rw [SortKey.mapExpr, SortKey.mapExpr, (alike _ key.expr (agree.plainKeys key member)).1]
  plainItems := by
    rw [rewritten.items]
    intro item member
    obtain ⟨old, present, rfl⟩ := List.mem_map.mp member
    exact (agree.plainItems old present).mapExpr fun expr within => (alike _ expr within).2
  plainKeys := by
    rw [rewritten.orderBy]
    intro key member
    obtain ⟨old, present, rfl⟩ := List.mem_map.mp member
    exact (alike _ old.expr (agree.plainKeys old present)).2

/-- The drafts of two variants. -/
structure Draft.Agree (draft other : Draft) : Prop where
  vars : draft.vars.Agree other.vars
  root : draft.tree.root.Agree other.tree.root

section Drafts

variable {draft other later laterOther : Draft} {g : VarTable → Site → Expr → Expr}
  {holds : VarTable → Prop}

/-- The drafts of variants agree after rewriting that treats them alike, where that succeeds. -/
theorem Draft.Agree.mapExprsM {f : VarTable → Site → Expr → Except LoweringError Expr}
    (becomes : ∀ vars site expr new, f vars site expr = .ok new → g vars site expr = new)
    (keeps : RefreshesKeep Modality.ofOk f fun vars later => holds vars → holds later)
    (alike : RewritesAlike holds g) (agree : draft.Agree other) (first : holds draft.vars)
    (second : holds other.vars) (runs : draft.mapExprsM f = .ok later)
    (runsOther : other.mapExprsM f = .ok laterOther)
    : later.Agree laterOther := by
  obtain ⟨tree, mapsTree, runs⟩ := bind_eq_ok.mp runs
  obtain ⟨vars, mapsVars, same⟩ := bind_eq_ok.mp runs
  obtain rfl := Except.ok.inj same
  obtain ⟨treeOther, mapsTreeOther, runsOther⟩ := bind_eq_ok.mp runsOther
  obtain ⟨varsOther, mapsVarsOther, same⟩ := bind_eq_ok.mp runsOther
  obtain rfl := Except.ok.inj same
  have rewritten {draft : Draft} {tree : Tree}
      (maps : draft.tree.mapScopesM (·.mapExprsM (f draft.vars)) = .ok tree)
      : draft.tree.root.Rewritten (g draft.vars) tree.root :=
    (Tree.mapScopesM_holds Modality.ofOk (fun scope _ =>
      Scope.mapExprsM_rewrites Modality.ofOk (becomes draft.vars) scope) tree maps).root
  refine ⟨agree.vars.mapProjectionsM becomes keeps alike first second mapsVars mapsVarsOther, ?_⟩
  exact agree.root.rewritten (alike _ _ agree.vars first second) (rewritten mapsTree)
    (rewritten mapsTreeOther)

/-- The same for rewriting that does not fail. -/
theorem Draft.Agree.mapExprs
    (keeps : RefreshesKeep Modality.ofId g fun vars later => holds vars → holds later)
    (alike : RewritesAlike holds g) (agree : draft.Agree other) (first : holds draft.vars)
    (second : holds other.vars)
    : (draft.mapExprs g).Agree (other.mapExprs g) := by
  have keepsOk : RefreshesKeep Modality.ofOk
      (fun vars site expr => (pure (g vars site expr) : Except LoweringError Expr))
      fun vars later => holds vars → holds later := by
    intro vars site expr changed same
    exact Except.ok.inj same ▸ keeps vars site expr
  have rewritten (draft : Draft)
      : draft.tree.root.Rewritten (g draft.vars) (draft.mapExprs g).tree.root :=
    (Tree.mapScopesM_holds Modality.ofId fun scope _ =>
      Scope.mapExprsM_rewrites Modality.ofId (g := g draft.vars) (fun _ _ => rfl) scope).root
  refine ⟨?_, agree.root.rewritten (alike _ _ agree.vars first second) (rewritten draft)
    (rewritten other)⟩
  exact agree.vars.mapProjectionsM
    (fun _ _ _ _ same => Except.ok.inj same) keepsOk alike first second
    (mapProjectionsM_pure g) (mapProjectionsM_pure g)

end Drafts

end CypherSql.Plan
