import CypherSql.Proofs.Exports.Handover

/-! Which properties are known to be read. For each property of a node or relationship the outermost
scope is kept that reads it, through whatever names, and putting variables in place of other names
leaves the properties that are read.
-/

namespace CypherSql.Plan

/-- Where a variable is declared, and what it projects there. -/
def Variable.projection (var : Variable) : Nat × Option Expr :=
  (var.scope, var.definition.projection?)

namespace VarTable

/-- The variables are declared in the same scopes and project the same. -/
def SameProjections (vars later : VarTable) : Prop :=
  ∀ id, (later.get? id).map Variable.projection = (vars.get? id).map Variable.projection

theorem SameProjections.threads : Threads SameProjections where
  refl := fun _ _ => rfl
  trans := fun _ _ _ first second id => (second id).trans (first id)

variable {vars later : VarTable}

theorem SameProjections.get? (same : vars.SameProjections later) {id : VarId} {var : Variable}
    (found : vars.get? id = some var)
    : ∃ other, later.get? id = some other ∧ other.projection = var.projection := by
  have projections := same id
  rw [found, Option.map_some] at projections
  exact Option.map_eq_some_iff.mp projections

/-- The variable that a definition is another name of is what it projects. -/
theorem target?_eq (vars : VarTable) (id : VarId)
    : vars.target? id
      = ((vars.get? id).map Variable.projection).bind fun projection =>
          projection.2.bind fun
            | .var target => some target
            | _ => none := by
  rw [target?, definition?]
  cases vars.get? id with
  | none => rfl
  | some var =>
      simp only [Option.map_some, Option.bind_some, Variable.projection]
      cases var.definition with
      | projected expr type => cases expr <;> rfl
      | _ => rfl

/-- Variables that project the same stand for the same. -/
theorem SameProjections.resolve (same : vars.SameProjections later)
    : later.resolve = vars.resolve := by
  have targets (id : VarId) : later.target? id = vars.target? id := by
    rw [target?_eq, target?_eq, same id]
  have size : later.size = vars.size := by
    have present (id : VarId) : (later.get? id).isSome = (vars.get? id).isSome := by
      simpa using congrArg Option.isSome (same id)
    exact NameMap.size_eq present
  have within (n : Nat) (id : VarId) : later.resolveWithin n id = vars.resolveWithin n id := by
    induction n generalizing id with
    | zero => rfl
    | succ n ih =>
        cases found : vars.target? id with
        | none =>
            rw [resolveWithin_of_target_none found, resolveWithin_of_target_none]
            rwa [targets]
        | some target =>
            have found' : later.target? id = some target := by rwa [targets]
            rw [resolveWithin_succ_of_target found, resolveWithin_succ_of_target found', ih]
  funext id
  rw [VarTable.resolve, VarTable.resolve, size, within]

/-- Names that lead to the same variables at once stand for the same, by induction over the chain
of names.
-/
theorem Ordered.resolve_eq {order orderLater : List VarId} (ordered : vars.Ordered order)
    (orderedLater : later.Ordered orderLater)
    (targets
      : ∀ id,
          later.target? id = vars.target? id
          ∨ later.target? id = (vars.target? id).map vars.resolve)
    : later.resolve = vars.resolve := by
  have last {id : VarId} (found : vars.target? id = none) : later.target? id = none := by
    rcases targets id with same | resolved
    · rw [same, found]
    · rw [resolved, found]
      rfl
  funext id
  induction id using ordered.chain_induction with
  | last id found => rw [resolve_of_target_none found, resolve_of_target_none (last found)]
  | next id target found ih =>
      rw [ordered.resolve_of_target found]
      rcases targets id with same | resolved
      · rw [orderedLater.resolve_of_target (same.trans found), ih]
      · rw [found, Option.map_some] at resolved
        rw [orderedLater.resolve_of_target resolved]
        exact resolve_of_target_none (last (ordered.target?_resolve target))

end VarTable

section Marking

variable {vars : VarTable} {read : PropertyRead} {id : VarId} {key : String}

/-- A definition can be marked if it is that of a node or relationship. -/
theorem Definition.require?_eq_some {definition new : Definition}
    (marked : definition.require? read = some new)
    : definition.isElement
      ∧ new.projection? = definition.projection?
      ∧ new.required = require definition.required read := by
  cases definition <;> simp only [Definition.require?, Option.some.injEq, reduceCtorEq] at marked
  all_goals
    subst marked
    exact ⟨rfl, rfl, rfl⟩

theorem markRead_sameProjections (vars : VarTable) (read : PropertyRead)
    : vars.SameProjections (markRead vars read) := by
  unfold markRead
  dsimp only
  split
  · rename_i definition marked
    obtain ⟨old, found, required⟩ := Option.bind_eq_some_iff.mp marked
    obtain ⟨var, present, rfl⟩ := VarTable.definition?_eq_some.mp found
    obtain ⟨-, projects, -⟩ := Definition.require?_eq_some required
    intro other
    rw [VarTable.get?_redefine_of_get? present]
    split
    · rename_i same
      simp [same, present, Variable.projection, projects]
    · rfl
  · exact VarTable.SameProjections.threads.refl vars

/-- A read is noted with the node or relationship that its base stands for, and nowhere else. -/
theorem markRead_required (isElement : vars.IsElement id)
    : (markRead vars read).required id
      = if vars.resolve read.base = id then require (vars.required id) read
        else vars.required id := by
  obtain ⟨old, found, isElement⟩ := isElement
  obtain ⟨new, marked⟩ : ∃ new, old.require? read = some new := by
    cases old <;> simp_all [Definition.isElement, Definition.require?]
  obtain ⟨-, -, required⟩ := Definition.require?_eq_some marked
  unfold markRead
  dsimp only
  split
  · rename_i definition marked'
    obtain ⟨old', found', marked'⟩ := Option.bind_eq_some_iff.mp marked'
    obtain ⟨var, present, rfl⟩ := VarTable.definition?_eq_some.mp found'
    rw [VarTable.required, VarTable.required, VarTable.definition?,
      VarTable.get?_redefine_of_get? present]
    by_cases same : vars.resolve read.base = id
    · subst same
      obtain rfl := Option.some.inj (found.symm.trans found')
      obtain rfl := Option.some.inj (marked.symm.trans marked')
      simpa [found] using required
    · rw [if_neg (Ne.symm same), if_neg same]
      rfl
  · rename_i unmarked
    rw [if_neg]
    rintro rfl
    simp [found, marked] at unmarked

/-- For each property of a node or relationship the outermost scope is kept, of those that are known
and those that read it. Induction over the reads; what their bases stand for does not change.
-/
theorem foldl_markRead_required (isElement : vars.IsElement id) (reads : List PropertyRead)
    (key : String)
    : ((reads.foldl markRead vars).required id).get? key
      = (((vars.required id).get? key).toList
          ++ (reads.filter fun read => vars.resolve read.base = id ∧ read.key = key).map
              (·.scope)).max? := by
  induction reads generalizing vars with
  | nil =>
      rw [List.foldl_nil]
      cases (vars.required id).get? key <;> rfl
  | cons read rest ih =>
      have isElementLater := (markRead_rewrites vars read).stamps.isElement.mpr isElement
      rw [List.foldl_cons, ih isElementLater, (markRead_sameProjections vars read).resolve,
        markRead_required isElement, List.filter_cons]
      by_cases base : vars.resolve read.base = id
      · rw [if_pos base, require, NameMap.get?_insert]
        by_cases same : read.key = key
        · subst same
          simp only [if_pos, base, and_self, decide_true]
          cases (vars.required id).get? read.key <;> rfl
        · simp only [same, Ne.symm same, and_false, decide_false, if_false, Bool.false_eq_true]
      · simp only [base, false_and, decide_false, if_false, Bool.false_eq_true]

theorem foldl_markRead_sameProjections (reads : List PropertyRead) (vars : VarTable)
    : vars.SameProjections (reads.foldl markRead vars) := by
  induction reads generalizing vars with
  | nil => exact VarTable.SameProjections.threads.refl vars
  | cons read rest ih =>
      exact VarTable.SameProjections.threads.trans _ _ _ (markRead_sameProjections vars read) (ih _)

end Marking

/-- The read with what its base stands for in place of the base. -/
def PropertyRead.resolved (vars : VarTable) (read : PropertyRead) : PropertyRead :=
  { read with base := vars.resolve read.base }

section Expressions

variable (vars : VarTable)

mutual

/-- The parts of an expression in which names are resolved are its parts with names resolved, by
induction over the expression.
-/
theorem Expr.parts_resolveName
    : ∀ expr : Expr,
        (expr.mapParts (resolveName vars)).parts = expr.parts.map (Expr.mapParts (resolveName vars))
  | .property base _ => congrArg (_ :: ·) (base.parts_resolveName)
  | .unary _ operand => congrArg (_ :: ·) (operand.parts_resolveName)
  | .binary _ left right => by
      have both := congrArg₂ (· ++ ·) left.parts_resolveName right.parts_resolveName
      exact congrArg (_ :: ·) (both.trans List.map_append.symm)
  | .list items => congrArg (_ :: ·) (Expr.partsAll_resolveName items)
  | .map entries => congrArg (_ :: ·) (Expr.partsEntries_resolveName entries)
  | .aggregate _ _ args => congrArg (_ :: ·) (Expr.partsAll_resolveName args)
  | .call _ args => congrArg (_ :: ·) (Expr.partsAll_resolveName args)
  | .literal _ => rfl
  | .star => rfl
  | .parameter _ => rfl
  | .var _ => rfl
  | .column _ _ => rfl

/-- The same for several expressions. -/
theorem Expr.partsAll_resolveName
    : ∀ exprs : List Expr,
        Expr.partsAll (Id.run (Expr.mapAllPartsM (fun part => pure (resolveName vars part)) exprs))
        = (Expr.partsAll exprs).map (Expr.mapParts (resolveName vars))
  | [] => rfl
  | expr :: rest => by
      have both := congrArg₂ (· ++ ·) expr.parts_resolveName (Expr.partsAll_resolveName rest)
      exact both.trans List.map_append.symm

/-- The same for the values of several entries. -/
theorem Expr.partsEntries_resolveName
    : ∀ entries : List (String × Expr),
        Expr.partsEntries
          (Id.run (Expr.mapEntryPartsM (fun part => pure (resolveName vars part)) entries))
        = (Expr.partsEntries entries).map (Expr.mapParts (resolveName vars))
  | [] => rfl
  | (_, expr) :: rest => by
      have both := congrArg₂ (· ++ ·) expr.parts_resolveName (Expr.partsEntries_resolveName rest)
      exact both.trans List.map_append.symm

end

theorem Expr.propertyRead?_resolveName (part : Expr)
    : (part.mapParts (resolveName vars)).propertyRead?
      = part.propertyRead?.map fun (base, key) => (vars.resolve base, key) := by
  cases part with
  | property base key => cases base <;> rfl
  | _ => rfl

/-- An expression in which names are resolved reads the same properties of what the names stand
for.
-/
theorem readsOf_resolveName (scope : Nat) (expr : Expr)
    : readsOf scope (expr.mapParts (resolveName vars))
      = (readsOf scope expr).map (PropertyRead.resolved vars) := by
  simp only [readsOf, Expr.parts_resolveName, List.filterMap_map, Function.comp_def,
    Expr.propertyRead?_resolveName, List.map_filterMap, Option.map_map]
  rfl

end Expressions

/-- The expression of an item without a name. -/
def Item.expr? : Item → Option Expr
  | .unnamed expr _ => some expr
  | .named _ => none

theorem Scope.expressions_eq (scope : Scope)
    : scope.expressions
      = scope.items.filterMap Item.expr? ++ scope.orderBy.map (·.expr) ++ scope.skip.toList
        ++ scope.limit.toList ++ scope.select.conditions ++ scope.clauses.filterMap (·.condition)
        ++ scope.select.items.flatMap (·.pending) ++ scope.select.joins.map (·.condition) :=
  rfl

/-- The expressions of a rewritten scope are its expressions rewritten. -/
theorem Scope.expressions_mapExprs (f : Expr → Expr) (scope : Scope)
    : (Id.run (scope.mapExprsM fun _ expr => pure (f expr))).expressions
      = scope.expressions.map f := by
  have perhaps (value : Option Expr)
      : (Option.mapM (fun expr => (pure (f expr) : Id Expr)) value).run = value.map f := by
    cases value <;> rfl
  have entry (item : Item)
      : (item.mapExprsM fun expr => (pure (f expr) : Id Expr)).run.expr? = item.expr?.map f := by
    cases item <;> rfl
  simp [Scope.expressions_eq, Scope.mapExprsM, Select.items, FromItem.mapExprsM, Join.mapExprsM,
    perhaps, entry, List.map_flatMap, List.flatMap_map, List.map_filterMap, Function.comp_def,
    Option.toList_map]

/-- The variable with what it projects rewritten. -/
def Variable.mapProjection (f : Expr → Expr) (var : Variable) : Variable :=
  match var.definition with
  | .projected expr type => { var with definition := .projected (f expr) type }
  | _ => var

@[simp]
theorem Variable.projection_mapProjection (f : Expr → Expr) (var : Variable)
    : (var.mapProjection f).projection = (var.scope, var.definition.projection?.map f) := by
  obtain ⟨name, id, scope, definition⟩ := var
  cases definition <;> rfl

theorem resolveName_congr {vars later : VarTable} (same : later.resolve = vars.resolve)
    : resolveName later = resolveName vars := by
  funext expr
  cases expr with
  | var id => simp [resolveName, same]
  | _ => rfl

/-- The rewriting that puts variables in place of other names of them. -/
abbrev nameResolving (vars : VarTable) (_ : Site) (expr : Expr) : Id Expr :=
  pure (expr.mapParts (resolveName vars))

section Resolving

variable {vars : VarTable} {declared : List VarId}

/-- A definition in which names are resolved leads to the same variables. -/
theorem target?_projected_resolveName (expr : Expr) (type : Option VarType)
    : (Definition.projected (expr.mapParts (resolveName vars)) type).target?
      = (Definition.projected expr type).target?.map vars.resolve := by
  cases expr <;> rfl

/-- Resolving the names in what one variable projects keeps what variables stand for. -/
theorem VarTable.Coherent.resolveName (coherent : vars.Coherent declared) {id : VarId}
    {var : Variable} {expr : Expr} {type : Option VarType} (found : vars.get? id = some var)
    (projects : var.definition = .projected expr type)
    (different : expr.mapParts (resolveName vars) ≠ expr)
    : let later :=
      (vars.redefine id (.projected (expr.mapParts (resolveName vars)) type)).refresh id
      later.Coherent declared ∧ later.resolve = vars.resolve := by
  have within : RewritesWithin Modality.ofId nameResolving := by
    intro vars order allowed _ expr ordered closed within
    exact expr.mapPartsM_within Modality.ofId
      (fun _ => (Expr.simplifiable_within ordered closed).resolveName) within
  have names : RewritesNames Modality.ofId nameResolving := fun _ _ => .inr rfl
  have kept := within.coherent names coherent found projects ⟨0, false⟩ different
  refine ⟨kept, ?_⟩
  obtain ⟨_, -, ordered⟩ := coherent.inOrder
  obtain ⟨_, -, orderedLater⟩ := kept.inOrder
  refine ordered.resolve_eq orderedLater fun other => ?_
  simp only [VarTable.target?, VarTable.definition?, VarTable.get?_refresh]
  rw [VarTable.get?_redefine_of_get? found]
  split
  · rename_i same
    rw [same, found]
    exact .inr (by simp [projects, target?_projected_resolveName])
  · exact .inl rfl

/-- Resolving the names in what variables project rewrites each projection by itself, because what
variables stand for stays the same. Induction over the variables.
-/
theorem mapProjections_resolveName {ids : List VarId} (distinct : ids.Nodup)
    (coherent : vars.Coherent declared)
    : let later := Id.run (mapProjectionsM nameResolving ids vars)
      later.resolve = vars.resolve
      ∧ ∀ id,
          later.get? id
          = if id ∈ ids then (vars.get? id).map (·.mapProjection (Expr.mapParts (resolveName vars)))
            else vars.get? id := by
  induction ids generalizing vars with
  | nil => exact ⟨rfl, by simp [mapProjectionsM]⟩
  | cons id rest ih =>
      obtain ⟨new, distinct⟩ := List.nodup_cons.mp distinct
      -- The other variables are rewritten in a table in which this one already is.
      have others {middle : VarTable} (coherent : middle.Coherent declared)
          (resolve : middle.resolve = vars.resolve)
          (get : ∀ other,
            middle.get? other
            = if other = id then
                (vars.get? id).map (·.mapProjection (Expr.mapParts (resolveName vars)))
              else vars.get? other)
          : let later := Id.run (mapProjectionsM nameResolving rest middle)
            later.resolve = vars.resolve
            ∧ ∀ other,
                later.get? other
                = if other ∈ id :: rest then
                    (vars.get? other).map (·.mapProjection (Expr.mapParts (resolveName vars)))
                  else vars.get? other := by
        obtain ⟨resolveRest, getRest⟩ := ih distinct coherent
        refine ⟨resolveRest.trans resolve, fun other => ?_⟩
        rw [getRest other, get other, resolveName_congr resolve]
        by_cases same : other = id
        · subst same
          simp [new]
        · simp [same]
      have unchanged
          (same : (vars.get? id).map (·.mapProjection (Expr.mapParts (resolveName vars)))
            = vars.get? id) :=
        others coherent rfl fun other => by
          split
          · rename_i here
            rw [here, same]
          · rfl
      unfold mapProjectionsM
      split
      · rename_i name other scope expr type found
        simp only [pure_bind]
        split
        · rename_i same
          refine unchanged ?_
          simp [found, Variable.mapProjection, same]
        · rename_i different
          obtain ⟨kept, resolve⟩ := coherent.resolveName found rfl different
          refine others kept resolve fun other => ?_
          rw [VarTable.get?_refresh, VarTable.get?_redefine_of_get? found, found]
          rfl
      · rename_i notProjected
        refine unchanged ?_
        cases found : vars.get? id with
        | none => rfl
        | some var =>
            obtain ⟨name, other, scope, definition⟩ := var
            cases definition with
            | projected expr type => exact absurd found (notProjected name other scope expr type)
            | _ => rfl

end Resolving

/-- A property is read in the expressions of a scope, or in what a variable projects there. -/
theorem mem_propertyReads {tree : Tree} {vars : VarTable} {read : PropertyRead}
    : read ∈ propertyReads tree vars
      ↔ (∃ scope ∈ tree.scopes, ∃ expr ∈ scope.expressions, read ∈ readsOf scope.index expr)
        ∨ ∃ id var expr,
            vars.get? id = some var
            ∧ var.definition.projection? = some expr
            ∧ read ∈ readsOf var.scope expr := by
  simp only [propertyReads, List.mem_append, List.mem_flatMap, VarTable.mem_toList,
    Option.mem_toList]
  refine or_congr_right ⟨?_, ?_⟩
  · rintro ⟨var, ⟨id, found⟩, expr, projects, inside⟩
    exact ⟨id, var, expr, found, projects, inside⟩
  · rintro ⟨id, var, expr, found, projects, inside⟩
    exact ⟨var, ⟨id, found⟩, expr, projects, inside⟩

/-- Variables that project the same read the same. -/
theorem VarTable.SameProjections.mem_propertyReads {vars later : VarTable}
    (same : vars.SameProjections later) (tree : Tree) {read : PropertyRead}
    : read ∈ propertyReads tree later ↔ read ∈ propertyReads tree vars := by
  have forward {first second : VarTable} (same : first.SameProjections second)
      (isRead : read ∈ propertyReads tree first)
      : read ∈ propertyReads tree second := by
    rw [Plan.mem_propertyReads] at isRead ⊢
    refine isRead.imp_right ?_
    rintro ⟨id, var, expr, found, projects, inside⟩
    obtain ⟨other, found', projection⟩ := same.get? found
    obtain ⟨scope, projection⟩ := Prod.mk.inj projection
    exact ⟨id, other, expr, found', projection.trans projects, scope ▸ inside⟩
  exact ⟨forward fun id => (same id).symm, forward same⟩

/-- The scopes of a draft in which names are resolved. -/
theorem resolveNames_scopes (draft : Draft)
    : (resolveNames draft).tree.scopes
      = draft.tree.scopes.map fun scope =>
          Id.run (scope.mapExprsM (nameResolving draft.vars)) := by
  have scopes := Tree.scopes_mapScopesM draft.tree fun scope : Scope =>
    scope.mapExprsM (nameResolving draft.vars)
  have run := congrArg Id.run scopes
  rw [List.idRun_mapM] at run
  exact run

/-- A draft in which names are resolved reads the same properties of what the names stand for. -/
theorem mem_propertyReads_resolveNames {draft : Draft} {declared : List VarId}
    (coherent : draft.vars.Coherent declared) {read : PropertyRead}
    : read ∈ propertyReads (resolveNames draft).tree (resolveNames draft).vars
      ↔ ∃ old ∈ propertyReads draft.tree draft.vars, old.resolved draft.vars = read := by
  have get (id : VarId)
      : (resolveNames draft).vars.get? id
        = (draft.vars.get? id).map
            (·.mapProjection (Expr.mapParts (resolveName draft.vars))) := by
    have each := (mapProjections_resolveName draft.vars.vars.keys_nodup coherent).2 id
    refine each.trans ?_
    split
    · rfl
    · rename_i absent
      have absent : draft.vars.get? id = none := by
        simpa [VarTable.mem_ids] using mt VarTable.mem_ids.mpr absent
      rw [absent]
      rfl
  -- What a variable projects is rewritten, and its scope stays.
  have rewritten (var : Variable)
      := Prod.mk.inj (var.projection_mapProjection (Expr.mapParts (resolveName draft.vars)))
  rw [mem_propertyReads]
  constructor
  · rintro (⟨scope, member, expr, inside, isRead⟩ | ⟨id, var, expr, found, projects, isRead⟩)
    · rw [resolveNames_scopes] at member
      obtain ⟨old, listed, rfl⟩ := List.mem_map.mp member
      rw [Scope.expressions_mapExprs] at inside
      obtain ⟨source, inOld, rfl⟩ := List.mem_map.mp inside
      rw [readsOf_resolveName] at isRead
      obtain ⟨read, before, rfl⟩ := List.mem_map.mp isRead
      exact ⟨read, mem_propertyReads.mpr (.inl ⟨old, listed, source, inOld, before⟩), rfl⟩
    · rw [get] at found
      obtain ⟨old, present, rfl⟩ := Option.map_eq_some_iff.mp found
      rw [(rewritten old).2] at projects
      obtain ⟨source, projected, rfl⟩ := Option.map_eq_some_iff.mp projects
      rw [(rewritten old).1, readsOf_resolveName] at isRead
      obtain ⟨read, before, rfl⟩ := List.mem_map.mp isRead
      exact ⟨read, mem_propertyReads.mpr (.inr ⟨id, old, source, present, projected, before⟩), rfl⟩
  · rintro ⟨old, isRead, rfl⟩
    rcases mem_propertyReads.mp isRead with
      ⟨scope, member, expr, inside, isRead⟩ | ⟨id, var, expr, found, projects, isRead⟩
    · refine .inl ⟨Id.run (scope.mapExprsM (nameResolving draft.vars)), ?_,
        expr.mapParts (resolveName draft.vars), ?_, ?_⟩
      · rw [resolveNames_scopes]
        exact List.mem_map_of_mem member
      · rw [Scope.expressions_mapExprs]
        exact List.mem_map_of_mem inside
      · rw [readsOf_resolveName]
        exact List.mem_map_of_mem isRead
    · refine .inr ⟨id, var.mapProjection (Expr.mapParts (resolveName draft.vars)),
        expr.mapParts (resolveName draft.vars), ?_, ?_, ?_⟩
      · rw [get, found]
        rfl
      · rw [(rewritten var).2, projects]
        rfl
      · rw [(rewritten var).1, readsOf_resolveName]
        exact List.mem_map_of_mem isRead

section Outermost

variable {draft : Draft} {declared : List VarId} {id : VarId} {key : String}

/-- The reads of a finished draft, by what their bases stood for when the properties were marked. -/
theorem mem_propertyReads_finished (coherent : draft.vars.Coherent declared) {read : PropertyRead}
    : read ∈ propertyReads (resolveNames (markProperties draft)).tree
          (resolveNames (markProperties draft)).vars
      ↔ ∃ old ∈ propertyReads draft.tree draft.vars, old.resolved draft.vars = read := by
  have same := foldl_markRead_sameProjections (propertyReads draft.tree draft.vars) draft.vars
  rw [mem_propertyReads_resolveNames (Draft.markProperties_coherent coherent)]
  simp only [markProperties, PropertyRead.resolved, same.resolve, same.mem_propertyReads]

/-- The scopes that read a property of a variable, through whatever names. -/
def Draft.readers (draft : Draft) (id : VarId) (key : String) : List Nat :=
  ((propertyReads draft.tree draft.vars).filter fun read =>
    draft.vars.resolve read.base = id ∧ read.key = key).map (·.scope)

/-- The scopes that read a property before names are resolved are those that read it at the end. -/
theorem mem_readers (coherent : draft.vars.Coherent declared) {scope : Nat}
    : scope ∈ draft.readers id key
      ↔ ⟨id, key, scope⟩ ∈ propertyReads (resolveNames (markProperties draft)).tree
          (resolveNames (markProperties draft)).vars := by
  rw [mem_propertyReads_finished coherent]
  simp only [Draft.readers, List.mem_map, List.mem_filter, decide_eq_true_eq]
  constructor
  · rintro ⟨read, ⟨member, rfl, rfl⟩, rfl⟩
    exact ⟨read, member, rfl⟩
  · rintro ⟨read, member, same⟩
    obtain ⟨base, sameKey, sameScope⟩ := PropertyRead.mk.inj same
    exact ⟨read, ⟨member, base, sameKey⟩, sameScope⟩

/-- The outermost of the scopes that read a property is kept with its node or relationship. -/
theorem required_finished (unmarked : draft.vars.Unmarked) (isElement : draft.vars.IsElement id)
    (key : String)
    : ((resolveNames (markProperties draft)).vars.required id).get? key
      = (draft.readers id key).max? := by
  have marked := foldl_markRead_required isElement (propertyReads draft.tree draft.vars) key
  rw [unmarked id, NameMap.get?_empty, Option.toList_none, List.nil_append] at marked
  have reworded := ((markProperties draft).mapExprs_reworded fun vars _ expr =>
    expr.mapParts (resolveName vars)).2
  exact (congrArg (·.get? key) (reworded.required id)).trans marked

end Outermost

/-- A scope of a tree reads a property of a variable: in one of its own expressions, or in what a
variable projects that it declares.
-/
inductive Tree.Reads (vars : VarTable) (tree : Tree) (id : VarId) (key : String) : Nat → Prop where
  | expression {scope expr} (member : scope ∈ tree.scopes) (inside : expr ∈ scope.expressions)
    (isPart : .property (.var id) key ∈ expr.parts)
    : Reads vars tree id key scope.index
  | projection {other var expr} (found : vars.get? other = some var)
    (projects : var.definition.projection? = some expr)
    (isPart : .property (.var id) key ∈ expr.parts)
    : Reads vars tree id key var.scope

theorem mem_readsOf {scope reader : Nat} {expr : Expr} {id : VarId} {key : String}
    : ⟨id, key, reader⟩ ∈ readsOf scope expr
      ↔ reader = scope ∧ .property (.var id) key ∈ expr.parts := by
  simp only [readsOf, List.mem_map, List.mem_filterMap, PropertyRead.mk.injEq, Prod.exists]
  constructor
  · rintro ⟨_, _, ⟨part, inside, isRead⟩, rfl, rfl, rfl⟩
    refine ⟨rfl, ?_⟩
    unfold Expr.propertyRead? at isRead
    split at isRead
    · obtain ⟨rfl, rfl⟩ := Prod.mk.inj (Option.some.inj isRead)
      exact inside
    · cases isRead
  · rintro ⟨rfl, inside⟩
    exact ⟨id, key, ⟨_, inside, rfl⟩, rfl, rfl, rfl⟩

/-- The reads that are collected are the reads of the scopes. -/
theorem Tree.reads_iff {tree : Tree} {vars : VarTable} {id : VarId} {key : String} {scope : Nat}
    : tree.Reads vars id key scope ↔ ⟨id, key, scope⟩ ∈ propertyReads tree vars := by
  rw [mem_propertyReads]
  constructor
  · intro reads
    cases reads with
    | expression member inside isPart =>
        exact .inl ⟨_, member, _, inside, mem_readsOf.mpr ⟨rfl, isPart⟩⟩
    | projection found projects isPart =>
        exact .inr ⟨_, _, _, found, projects, mem_readsOf.mpr ⟨rfl, isPart⟩⟩
  · rintro (⟨_, member, _, inside, isRead⟩ | ⟨_, _, _, found, projects, isRead⟩)
    · obtain ⟨rfl, isPart⟩ := mem_readsOf.mp isRead
      exact .expression member inside isPart
    · obtain ⟨rfl, isPart⟩ := mem_readsOf.mp isRead
      exact .projection found projects isPart

/-- With each node and relationship a scope is kept for every property that some scope reads of it:
one that reads the property itself, and no scope further out does.
-/
structure Tree.MarksReads (vars : VarTable) (tree : Tree) : Prop where
  isRead
    : ∀ {id key outermost},
        (vars.required id).get? key = some outermost → tree.Reads vars id key outermost
  isMarked
    : ∀ {id key scope},
        vars.IsElement id
        → tree.Reads vars id key scope
        → ∃ outermost, (vars.required id).get? key = some outermost ∧ scope ≤ outermost

/-- At the end, the properties that are read are marked. -/
theorem finished_marksReads {draft : Draft} {declared : List VarId}
    (coherent : draft.vars.Coherent declared) (unmarked : draft.vars.Unmarked)
    : (resolveNames (markProperties draft)).tree.MarksReads
        (resolveNames (markProperties draft)).vars := by
  have same := draft.finished_alike.2
  refine ⟨fun {id key outermost} required => ?_, fun {id key scope} isElement isRead => ?_⟩
  · have isElement := same.isElement.mp (VarTable.isElement_of_required required)
    rw [required_finished unmarked isElement] at required
    exact Tree.reads_iff.mpr ((mem_readers coherent).mp (List.max?_mem required))
  · have member := (mem_readers coherent).mpr (Tree.reads_iff.mp isRead)
    obtain ⟨outermost, largest⟩ := Option.isSome_iff_exists.mp (List.isSome_max?_of_mem member)
    rw [required_finished unmarked (same.isElement.mp isElement)]
    exact ⟨outermost, largest, (List.max?_eq_some_iff.mp largest).2 scope member⟩

end CypherSql.Plan
