import CypherSql.Plan.Simplify
import CypherSql.Proofs.Renaming.Joins

/-! The steps that rewrite expressions, of a query and of the same query with other names. Each
reads the definitions that are rewritten already, so that the order in which the variables are
visited has to stay the same.
-/

namespace CypherSql.Plan

variable {ρ : Renaming} {allowed : VarId → Prop} {vars other : VarTable}

section Changes

variable {m : Type → Type} [Monad m] (relator : Relator m)
  {f g : VarTable → Site → Expr → m Expr}

/-- Changes that agree on expressions agree on what variables project, by induction over the
variables.
-/
theorem mapProjectionsM_rename
    (each
      : ∀ vars other site expr,
          vars.Renamed ρ allowed other
          → relator.Rel (ImageOf (Expr.rename ρ)) (f vars site expr) (g other site (expr.rename ρ)))
    (ids : List VarId) (renamed : vars.Renamed ρ allowed other)
    : relator.Rel (VarTable.Renamed ρ allowed) (mapProjectionsM f ids vars)
        (mapProjectionsM g (ids.map ρ) other) := by
  induction ids generalizing vars other with
  | nil => exact relator.pure renamed
  | cons id rest ih =>
      rcases rel_cases (renamed.get? id) with ⟨missing, gone⟩ | ⟨var, new, found, there, same⟩
      · simp only [List.map_cons, mapProjectionsM, missing, gone]
        exact ih renamed
      obtain ⟨_, _, scope, definition⟩ := var
      obtain ⟨_, _, _, definitionOther⟩ := new
      obtain ⟨-, rfl, same, -⟩ := same
      have own := VarTable.definition?_of_get? found
      simp only [List.map_cons, mapProjectionsM, found, there]
      cases same with
      | projected expr type =>
          refine relator.bind_image (each vars other _ expr renamed) fun changed => ?_
          simp only [Expr.rename_inj]
          split
          · exact ih renamed
          · exact ih ((renamed.redefine own (.projected changed type) rfl rfl).refresh id)
      | _ => exact ih renamed

variable [LawfulMonad m]

/-- Changes that agree on expressions agree on drafts, where the variables that name expressions
keep their order.
-/
theorem Draft.Renamed.mapExprsM {draft draftOther : Draft}
    (renamed : draft.Renamed ρ allowed draftOther)
    (ordered : VarTable.KeepsOrder ρ allowed)
    (each
      : ∀ vars other site expr,
          vars.Renamed ρ allowed other
          → relator.Rel (ImageOf (Expr.rename ρ)) (f vars site expr) (g other site (expr.rename ρ)))
    : relator.Rel (Draft.Renamed ρ allowed) (draft.mapExprsM f) (draftOther.mapExprsM g) := by
  have visited (f : VarTable → Site → Expr → m Expr) (vars : VarTable)
      : mapProjectionsM f vars.ids vars
        = mapProjectionsM f (vars.ids.filter vars.projects) vars := by
    refine mapProjectionsM_filter fun id var found projects => ?_
    rw [VarTable.projects, VarTable.definition?_of_get? found]
    exact Option.isSome_iff_ne_none.mpr projects
  unfold Draft.mapExprsM
  rw [renamed.tree, visited f, visited g, renamed.vars.projecting_eq ordered]
  refine relator.bind_image (Tree.mapScopesM_rename relator (fun scope => ?_) draft.tree)
    fun tree => ?_
  · exact Scope.mapExprsM_rename relator (fun site expr => each _ _ site expr renamed.vars) scope
  · refine relator.bind (mapProjectionsM_rename relator each _ renamed.vars)
      fun vars varsOther same => ?_
    exact relator.pure { renamed with tree := rfl, vars := same }

end Changes

theorem Draft.Renamed.mapExprs {draft draftOther : Draft}
    (renamed : draft.Renamed ρ allowed draftOther)
    (ordered : VarTable.KeepsOrder ρ allowed) {f g : VarTable → Site → Expr → Expr}
    (each
      : ∀ vars other site expr,
          vars.Renamed ρ allowed other → g other site (expr.rename ρ) = (f vars site expr).rename ρ)
    : (draft.mapExprs f).Renamed ρ allowed (draftOther.mapExprs g) :=
  renamed.mapExprsM Relator.ofId ordered each

section Functions

theorem pathOf?_rename (renamed : vars.Renamed ρ allowed other) (id : VarId)
    : pathOf? other (ρ id) = (pathOf? vars id).map fun (hops, elements) =>
      (hops, elements.map ρ) := by
  simp only [pathOf?, renamed.resolve_eq]
  rcases rel_cases (renamed.definition? (vars.resolve id)) with
    ⟨missing, gone⟩ | ⟨definition, new, found, there, same⟩
  · simp only [missing, gone, Option.map_none]
  · simp only [found, there]
    cases same <;> rfl

theorem isEntity_rename (renamed : vars.Renamed ρ allowed other) (id : VarId)
    : isEntity other (ρ id) = isEntity vars id := by
  rw [isEntity, isEntity, renamed.type?_eq]

variable (ρ) in
theorem knownCall_rename (name : String) (args : List Expr)
    : SameOutcome (ImageOf (Expr.rename ρ)) (knownCall name args)
        (knownCall name (Expr.renameAll ρ args)) := by
  unfold knownCall
  cases ScalarFunction.ofName? name with
  | none => exact .fail rfl
  | some function => exact .ok rfl

theorem simplifyCall_rename (renamed : vars.Renamed ρ allowed other) (name : String)
    (args : List Expr)
    : SameOutcome (ImageOf (Expr.rename ρ)) (simplifyCall vars name args)
        (simplifyCall other name (Expr.renameAll ρ args)) := by
  have id : SameOutcome (ImageOf (Expr.rename ρ)) (simplifyId vars args)
      (simplifyId other (Expr.renameAll ρ args)) := by
    rcases args with _ | ⟨first, _ | ⟨second, rest⟩⟩
    · exact .fail rfl
    · cases first with
      | var id =>
          simp only [Expr.renameAll, Expr.rename, simplifyId, isEntity_rename renamed]
          split
          · exact .ok rfl
          · exact .fail rfl
      | _ => exact .fail rfl
    · cases first <;> exact .fail rfl
  have length : pathLength? other (Expr.renameAll ρ args) = pathLength? vars args := by
    rcases args with _ | ⟨first, _ | ⟨second, rest⟩⟩
    · rfl
    · cases first with
      | var id =>
          simp only [Expr.renameAll, Expr.rename, pathLength?, pathOf?_rename renamed,
            Option.map_map]
          rfl
      | _ => rfl
    · cases first <;> rfl
  unfold simplifyCall
  split
  · exact id
  · split
    · rw [length]
      cases pathLength? vars args with
      | none => exact knownCall_rename ρ name args
      | some hops => exact .ok rfl
    · exact knownCall_rename ρ name args

theorem countArgs_rename (renamed : vars.Renamed ρ allowed other) (args : List Expr)
    : countArgs other (Expr.renameAll ρ args) = Expr.renameAll ρ (countArgs vars args) := by
  rcases args with _ | ⟨first, _ | ⟨second, rest⟩⟩
  · rfl
  · cases first with
    | var id =>
        simp only [Expr.renameAll, Expr.rename, countArgs, pathOf?_rename renamed]
        rcases pathOf? vars id with _ | ⟨hops, _ | ⟨element, elements⟩⟩ <;> rfl
    | _ => rfl
  · cases first <;> rfl

theorem simplifyFunction_rename (renamed : vars.Renamed ρ allowed other) (expr : Expr)
    : SameOutcome (ImageOf (Expr.rename ρ)) (simplifyFunction vars expr)
        (simplifyFunction other (expr.rename ρ)) := by
  cases expr with
  | call name args => exact simplifyCall_rename renamed name args
  | aggregate function distinct args =>
      cases function with
      | count =>
          refine .ok ?_
          rw [countArgs_rename renamed]
          rfl
      | _ => exact .ok rfl
  | _ => exact .ok rfl

theorem simplifyFunctions_rename {draft draftOther : Draft}
    (renamed : draft.Renamed ρ allowed draftOther)
    (ordered : VarTable.KeepsOrder ρ allowed)
    : SameOutcome (Draft.Renamed ρ allowed) (simplifyFunctions draft)
      (simplifyFunctions draftOther) :=
  renamed.mapExprsM SameOutcome.relator ordered fun _ _ _ expr renamed =>
    Expr.mapPartsM_rename SameOutcome.relator (simplifyFunction_rename renamed) expr

theorem simplifyProperties_rename {draft draftOther : Draft}
    (renamed : draft.Renamed ρ allowed draftOther) (ordered : VarTable.KeepsOrder ρ allowed)
    : (simplifyProperties draft).Renamed ρ allowed (simplifyProperties draftOther) := by
  refine renamed.mapExprs ordered fun vars other _ expr renamed =>
    Expr.mapParts_rename ρ (fun part => ?_) expr
  cases part with
  | property base key =>
      cases base with
      | var id =>
          simp only [Expr.rename, simplifyProperty, isEntity_rename renamed, renamed.resolve_eq]
          split <;> rfl
      | _ => rfl
  | _ => rfl

theorem resolveNames_rename {draft draftOther : Draft}
    (renamed : draft.Renamed ρ allowed draftOther) (ordered : VarTable.KeepsOrder ρ allowed)
    : (resolveNames draft).Renamed ρ allowed (resolveNames draftOther) := by
  refine renamed.mapExprs ordered fun vars other _ expr renamed =>
    Expr.mapParts_rename ρ (fun part => ?_) expr
  cases part with
  | var id => simp only [Expr.rename, resolveName, renamed.resolve_eq]
  | _ => rfl

end Functions

section Constants

theorem constant?_rename (renamed : vars.Renamed ρ allowed other) (id : VarId)
    : constant? other (ρ id) = (constant? vars id).map fun (value, scope) =>
      (value.rename ρ, scope) := by
  unfold constant?
  rcases rel_cases (renamed.get? id) with ⟨missing, gone⟩ | ⟨var, new, found, there, same⟩
  · rw [missing, gone]
    rfl
  · rw [found, there]
    simp only [Option.bind_eq_bind, Option.bind_some, same.definition.projection?_eq, same.scope]
    cases var.definition.projection? with
    | none => rfl
    | some expr =>
        simp only [Option.map_some, Option.bind_some, expr.isConstant_rename]
        split <;> rfl

theorem inlineConstant_rename (renamed : vars.Renamed ρ allowed other) (scope : Nat) (expr : Expr)
    : inlineConstant other scope (expr.rename ρ) = (inlineConstant vars scope expr).rename ρ := by
  cases expr with
  | var id =>
      simp only [Expr.rename, inlineConstant, constant?_rename renamed]
      rcases constant? vars id with _ | ⟨value, declaredIn⟩
      · rfl
      · simp only [Option.map_some]
        split <;> rfl
  | property base key =>
      cases base with
      | map entries =>
          have found : (Expr.renameEntries ρ entries).lookup key
              = (entries.lookup key).map (Expr.rename ρ) := by
            induction entries with
            | nil => rfl
            | cons entry rest ih =>
                obtain ⟨name, value⟩ := entry
                simp only [Expr.renameEntries, lookup_cons_entry, ih]
                split <;> rfl
          simp only [Expr.rename, inlineConstant, found]
          cases entries.lookup key <;> rfl
      | _ => rfl
  | _ => rfl

variable (ρ) in
/-- A variable is named by an expression of a list if its new id is named in the renamed list. -/
theorem any_references_rename (exprs : List Expr) (id : VarId)
    : (exprs.map (Expr.rename ρ)).any (fun expr => ρ id ∈ expr.references)
      = exprs.any fun expr => id ∈ expr.references := by
  rw [List.any_map]
  exact congrArg exprs.any (funext fun expr => decide_eq_decide.mpr (expr.references_rename ρ id))

/-- Parts of the images that are kept are images of the parts of what is kept. -/
theorem flatMap_filter_image {α β : Type} {f : α → α} {g : β → β} {p : α → Bool}
    {h : α → List β} (kept : ∀ item, p (f item) = p item)
    (same : ∀ item, h (f item) = (h item).map g) (items : List α)
    : ((items.map f).filter p).flatMap h = ((items.filter p).flatMap h).map g := by
  have composed : p ∘ f = p := funext kept
  rw [List.filter_map, composed, List.flatMap_map, List.map_flatMap]
  exact congrArg (List.flatMap · _) (funext same)

/-- A variable is read in a tree if its new id is in the renamed one. -/
theorem isRead_rename (renamed : vars.Renamed ρ allowed other) (tree : Tree) (declaredIn : Nat)
    (id : VarId)
    : isRead (tree.rename ρ) other declaredIn (ρ id) = isRead tree vars declaredIn id := by
  have later :=
    flatMap_filter_image (f := Scope.rename ρ) (p := fun scope => declaredIn < scope.index)
    (h := Scope.expressions) (fun _ => rfl) (Scope.expressions_rename ρ) tree.scopes
  have sorting := flatMap_filter_image (f := Scope.rename ρ) (g := Expr.rename ρ)
    (p := fun scope => scope.index = declaredIn) (h := fun scope => scope.orderBy.map (·.expr))
    (fun _ => rfl) (fun scope => by simp [Scope.rename, SortKey.rename]) tree.scopes
  have exported := flatMap_filter_image (f := Subquery.rename ρ)
    (p := fun subquery => declaredIn < subquery.scope.index) (h := Subquery.exports)
    (fun _ => rfl) (fun _ => rfl) tree.subqueries
  have own (exports : List Export)
      : (exports.map (Export.rename ρ)).any (·.id = ρ id) = exports.any (·.id = id) := by
    rw [List.any_map]
    refine congrArg exports.any (funext fun item => ?_)
    simp only [Function.comp_apply, Export.id_rename, ρ.eq_iff]
  have subqueries : (tree.rename ρ).subqueries = tree.subqueries.map (Subquery.rename ρ) := rfl
  simp only [isRead, Tree.scopes_rename, subqueries, later, sorting, exported, own,
    ← List.map_append, any_references_rename, renamed.dependents_isEmpty]

theorem standIn_rename (renamed : vars.Renamed ρ allowed other) (id : VarId)
    : (standIn vars id).Renamed ρ allowed (standIn other (ρ id)) := by
  refine VarTable.Renamed.refresh ?_ id
  rcases rel_cases (renamed.definition? id)
    with ⟨missing, gone⟩ | ⟨definition, new, found, there, same⟩
  · simp only [missing, gone]
    exact renamed
  · simp only [found, there]
    cases same with
    | projected expr type =>
        cases expr with
        | literal value => exact renamed
        | _ => exact renamed.redefine found (.projected (.literal (.integer 1)) type) rfl rfl
    | _ => exact renamed

/-- Other members than a given one have images that differ from its image. -/
theorem filter_ne_image {α : Type} [DecidableEq α] {f : α → α} (injective : Function.Injective f)
    (item : α) (items : List α)
    : (items.map f).filter (· ≠ f item) = (items.filter (· ≠ item)).map f := by
  rw [List.filter_map]
  refine congrArg (List.map f) (List.filter_congr fun other _ => ?_)
  simp only [Function.comp_apply, ne_eq, injective.eq_iff]

variable (ρ) in
theorem FromItem.without_rename (source : Nat) (id : VarId) (item : FromItem)
    : (item.rename ρ).without source (ρ id) = (item.without source id).rename ρ := by
  have same : (item.rename ρ).source = item.source := rfl
  simp only [FromItem.without, same]
  split
  · simp only [FromItem.rename, filter_ne_image ρ.injective]
  · rfl

variable (ρ) in
theorem Scope.without_rename (source : Nat) (id : VarId) (scope : Scope)
    : (scope.rename ρ).without source (ρ id) = (scope.without source id).rename ρ := by
  simp only [Scope.without, Scope.rename, Select.rename, List.map_map, Function.comp_def,
    FromItem.without_rename]

variable (ρ) in
theorem Subquery.unproject_rename (id : VarId) (subquery : Subquery)
    : (subquery.rename ρ).unproject (ρ id) = (subquery.unproject id).rename ρ := by
  have named : Item.named (ρ id) = (Item.named id).rename ρ := rfl
  have exports : (subquery.exports.map (Export.rename ρ)).filter (·.id ≠ ρ id)
      = (subquery.exports.filter (·.id ≠ id)).map (Export.rename ρ) := by
    rw [List.filter_map]
    refine congrArg (List.map _) (List.filter_congr fun item _ => ?_)
    simp only [Function.comp_apply, Export.id_rename, ne_eq, ρ.eq_iff]
  simp only [Subquery.unproject, Subquery.rename, Scope.rename, exports, named,
    filter_ne_image (Item.rename_injective ρ)]

variable (ρ) in
theorem Tree.unproject_rename (source : Nat) (id : VarId) (tree : Tree)
    : (tree.rename ρ).unproject source (ρ id) = (tree.unproject source id).rename ρ := by
  have modified
      : (tree.subqueries.map (Subquery.rename ρ)).modify source (·.unproject (ρ id))
        = (tree.subqueries.modify source (·.unproject id)).map (Subquery.rename ρ) := by
    refine List.ext_getElem? fun i => ?_
    simp only [List.getElem?_modify, List.getElem?_map]
    cases tree.subqueries[i]? with
    | none => rfl
    | some subquery =>
        simp only [Option.map_some, Option.map_eq_map]
        split
        · exact congrArg some (Subquery.unproject_rename ρ id subquery)
        · rfl
  simp only [Tree.unproject, Tree.rename, modified, List.map_map, Function.comp_def,
    Scope.without_rename, Subquery.rename]

theorem dropConstant_rename (source : Nat) {draft draftOther : Draft} (id : VarId)
    (renamed : draft.Renamed ρ allowed draftOther)
    : (dropConstant source draft id).Renamed ρ allowed (dropConstant source draftOther (ρ id)) := by
  have subqueries
      : (draft.tree.rename ρ).subqueries[source]?
        = draft.tree.subqueries[source]?.map (Subquery.rename ρ) :=
    List.getElem?_map
  simp only [dropConstant, renamed.tree, subqueries]
  cases draft.tree.subqueries[source]? with
  | none => exact renamed
  | some subquery =>
      have index : (subquery.rename ρ).scope.index = subquery.scope.index := rfl
      have items : (subquery.rename ρ).scope.items.length = subquery.scope.items.length :=
        List.length_map _
      simp only [Option.map_some, index, items, isRead_rename renamed.vars]
      split
      · exact renamed
      · split
        · exact { renamed with tree := rfl, vars := standIn_rename renamed.vars id }
        · exact { renamed with
            tree := Tree.unproject_rename ρ source id draft.tree
            vars := renamed.vars.remove id }

/-- Steps over the items of a list and over their images lead from a renamed draft to a renamed one,
by induction over the items.
-/
theorem Draft.Renamed.foldl {α β : Type} (image : α → β) {f : Draft → α → Draft}
    {g : Draft → β → Draft}
    {draft draftOther : Draft} (renamed : draft.Renamed ρ allowed draftOther) (items : List α)
    (step
      : ∀ draft draftOther item,
          draft.Renamed ρ allowed draftOther
          → (f draft item).Renamed ρ allowed (g draftOther (image item)))
    : (items.foldl f draft).Renamed ρ allowed ((items.map image).foldl g draftOther) := by
  induction items generalizing draft draftOther with
  | nil => exact renamed
  | cons item rest ih => exact ih (step _ _ item renamed)

theorem dropConstantsOf_rename (source : Nat) {draft draftOther : Draft}
    (renamed : draft.Renamed ρ allowed draftOther)
    : (dropConstantsOf draft source).Renamed ρ allowed (dropConstantsOf draftOther source) := by
  have subqueries
      : (draft.tree.rename ρ).subqueries[source]?
        = draft.tree.subqueries[source]?.map (Subquery.rename ρ) :=
    List.getElem?_map
  simp only [dropConstantsOf, renamed.tree, subqueries]
  cases draft.tree.subqueries[source]? with
  | none => exact renamed
  | some subquery =>
      have declared : (subquery.rename ρ).scope.declared = subquery.scope.declared.map ρ :=
        Scope.declared_rename ρ subquery.scope
      have constants
          : (subquery.scope.declared.map ρ).filter (fun id => (constant? draftOther.vars id).isSome)
            = (subquery.scope.declared.filter fun id =>
              (constant? draft.vars id).isSome).map ρ := by
        rw [List.filter_map]
        refine congrArg (List.map _) (List.filter_congr fun id _ => ?_)
        simp only [Function.comp_apply, constant?_rename renamed.vars, Option.isSome_map]
      simp only [Option.map_some, declared, constants]
      exact renamed.foldl ρ _ fun _ _ id => dropConstant_rename source id

theorem dropConstants_rename {draft draftOther : Draft}
    (renamed : draft.Renamed ρ allowed draftOther)
    : (dropConstants draft).Renamed ρ allowed (dropConstants draftOther) := by
  have count : draftOther.tree.subqueries.length = draft.tree.subqueries.length := by
    rw [renamed.tree]
    exact List.length_map _
  have dropped := renamed.foldl id (List.range draft.tree.subqueries.length) fun _ _ source =>
    dropConstantsOf_rename source
  rw [List.map_id] at dropped
  unfold dropConstants
  rw [count]
  exact dropped

theorem inlineConstants_rename {draft draftOther : Draft}
    (renamed : draft.Renamed ρ allowed draftOther) (ordered : VarTable.KeepsOrder ρ allowed)
    : (inlineConstants draft).Renamed ρ allowed (inlineConstants draftOther) := by
  refine dropConstants_rename (renamed.mapExprs ordered fun vars other site expr renamed => ?_)
  split
  · rfl
  · exact Expr.mapParts_rename ρ (inlineConstant_rename renamed site.scope) expr

end Constants

section Reads

/-- The read with the variable under its new id. -/
def PropertyRead.rename (ρ : Renaming) (read : PropertyRead) : PropertyRead :=
  { read with base := ρ read.base }

variable (ρ) in
theorem readsOf_rename (scope : Nat) (expr : Expr)
    : readsOf scope (expr.rename ρ) = (readsOf scope expr).map (PropertyRead.rename ρ) := by
  have own (part : Expr)
      : (part.rename ρ).propertyRead? = part.propertyRead?.map (Prod.map ρ id) := by
    cases part with
    | property base key => cases base <;> rfl
    | _ => rfl
  rw [readsOf, readsOf, Expr.parts_rename, filterMap_image own, List.map_map, List.map_map]
  rfl

/-- What the variables that name expressions read, in their order. -/
theorem toList_flatMap_projection (vars : VarTable) (reads : Nat → Expr → List PropertyRead)
    : (vars.toList.flatMap fun var => var.definition.projection?.toList.flatMap (reads var.scope))
      = (vars.ids.filter vars.projects).flatMap fun id =>
          (vars.get? id).toList.flatMap fun var =>
            var.definition.projection?.toList.flatMap (reads var.scope) := by
  have each (entries : List (String × Variable))
    (own : ∀ entry ∈ entries, vars.get? entry.1 = some entry.2)
      : ((entries.map (·.2)).flatMap fun var =>
        var.definition.projection?.toList.flatMap (reads var.scope))
        = ((entries.map (·.1)).filter vars.projects).flatMap fun id =>
            (vars.get? id).toList.flatMap fun var =>
              var.definition.projection?.toList.flatMap (reads var.scope) := by
    induction entries with
    | nil => rfl
    | cons entry rest ih =>
        have found := own entry (by simp)
        have others := ih fun entry member => own entry (by simp [member])
        have projects : vars.projects entry.1 = entry.2.definition.projection?.isSome := by
          rw [VarTable.projects, VarTable.definition?_of_get? found, Option.bind_some]
        rw [List.map_cons, List.map_cons, List.flatMap_cons, others, List.filter_cons, projects]
        cases kind : entry.2.definition.projection? with
        | none => simp
        | some expr => simp [found, kind]
  exact each vars.vars.entries fun entry member => NameMap.mem_entries.mp member

theorem propertyReads_rename (renamed : vars.Renamed ρ allowed other)
    (ordered : VarTable.KeepsOrder ρ allowed) (tree : Tree)
    : propertyReads (tree.rename ρ) other
      = (propertyReads tree vars).map (PropertyRead.rename ρ) := by
  have scopes
      : ((tree.rename ρ).scopes.flatMap fun scope =>
        scope.expressions.flatMap (readsOf scope.index))
        = (tree.scopes.flatMap fun scope => scope.expressions.flatMap (readsOf scope.index)).map
            (PropertyRead.rename ρ) := by
    rw [Tree.scopes_rename, List.flatMap_map, List.map_flatMap]
    refine congrArg (List.flatMap · _) (funext fun scope => ?_)
    rw [Scope.expressions_rename, List.flatMap_map, List.map_flatMap]
    exact congrArg (List.flatMap · _) (funext (readsOf_rename ρ scope.index))
  have projections (id : VarId)
      : ((other.get? (ρ id)).toList.flatMap fun var =>
            var.definition.projection?.toList.flatMap (readsOf var.scope))
        = ((vars.get? id).toList.flatMap fun var =>
            var.definition.projection?.toList.flatMap (readsOf var.scope)).map
              (PropertyRead.rename ρ) := by
    rcases rel_cases (renamed.get? id) with ⟨missing, gone⟩ | ⟨var, new, found, there, same⟩
    · rw [missing, gone]
      rfl
    · simp only [found, there, Option.toList_some, List.flatMap_cons, List.flatMap_nil,
        List.append_nil, same.definition.projection?_eq, same.scope]
      cases var.definition.projection? with
      | none => rfl
      | some expr => simp [readsOf_rename]
  have table
      : (other.toList.flatMap fun var => var.definition.projection?.toList.flatMap
        (readsOf var.scope))
        = (vars.toList.flatMap fun var => var.definition.projection?.toList.flatMap
          (readsOf var.scope)).map
            (PropertyRead.rename ρ) := by
    rw [toList_flatMap_projection, toList_flatMap_projection, renamed.projecting_eq ordered,
      List.flatMap_map, List.map_flatMap]
    exact congrArg (List.flatMap · _) (funext projections)
  rw [propertyReads, propertyReads, scopes, table, List.map_append]

variable (ρ) in
/-- What a definition becomes when a property of it is read does not depend on ids. -/
theorem Definition.require?_rename {definition definitionOther : Definition}
    (same : definition.Renamed ρ definitionOther) (read : PropertyRead)
    : Option.Rel (Definition.Renamed ρ) (definition.require? read)
        (definitionOther.require? (read.rename ρ)) := by
  cases same with
  | node node => exact .some (.node { node with required := require node.required read })
  | relationship rel =>
      exact .some (.relationship { rel with required := require rel.required read })
  | _ => exact .none

theorem Definition.kind_require? {definition marked : Definition} {read : PropertyRead}
    (becomes : definition.require? read = some marked)
    : marked.isTemporary = definition.isTemporary
      ∧ marked.projection?.isSome = definition.projection?.isSome := by
  cases definition with
  | node | relationship =>
      cases becomes
      exact ⟨rfl, rfl⟩
  | _ => cases becomes

theorem markRead_rename (renamed : vars.Renamed ρ allowed other) (read : PropertyRead)
    : (markRead vars read).Renamed ρ allowed (markRead other (read.rename ρ)) := by
  have base : other.resolve (read.rename ρ).base = ρ (vars.resolve read.base) :=
    renamed.resolve_eq _
  simp only [markRead, base]
  rcases rel_cases (renamed.definition? (vars.resolve read.base)) with
    ⟨missing, gone⟩ | ⟨definition, new, found, there, same⟩
  · simp only [missing, gone, Option.bind_none]
    exact renamed
  simp only [found, there, Option.bind_some]
  rcases rel_cases (Definition.require?_rename ρ same read) with
    ⟨none, noneOther⟩ | ⟨marked, markedOther, becomes, becomesOther, alike⟩
  · simp only [none, noneOther]
    exact renamed
  · obtain ⟨temporary, projection⟩ := Definition.kind_require? becomes
    simp only [becomes, becomesOther]
    exact renamed.redefine found alike temporary projection

theorem markProperties_rename {draft draftOther : Draft}
    (renamed : draft.Renamed ρ allowed draftOther)
    (ordered : VarTable.KeepsOrder ρ allowed)
    : (markProperties draft).Renamed ρ allowed (markProperties draftOther) := by
  have marked (reads : List PropertyRead) {vars other : VarTable}
    (renamed : vars.Renamed ρ allowed other)
      : (reads.foldl markRead vars).Renamed ρ allowed
          ((reads.map (PropertyRead.rename ρ)).foldl markRead other) := by
    induction reads generalizing vars other with
    | nil => exact renamed
    | cons read rest ih => exact ih (markRead_rename renamed read)
  have vars := marked (propertyReads draft.tree draft.vars) renamed.vars
  rw [← propertyReads_rename renamed.vars ordered, ← renamed.tree] at vars
  exact { renamed with vars := vars }

end Reads

end CypherSql.Plan
